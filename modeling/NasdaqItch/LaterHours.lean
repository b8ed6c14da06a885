import NasdaqItch.PeriodClock
import NasdaqItch.Report
import NasdaqItch.VWAPStep

/-!
# Later hours

An execution stamped within the market's hours is filed under the period of its own timestamp, so
what comes from period `k + 1` on leaves the slots up to period `k` as they are, and with them the
lines of the files 1 to `k + 1`.
-/

namespace NasdaqItch

open UnorderedMap Runs VWAPManager

/-- When period `k` starts; for 7, when the last period ends. -/
def startOfPeriod (k : Nat) : UInt64 := startOfFirstPeriod + UInt64.ofNat k * nanosecondsPerHour

/-- From the start of period `k` on, and before 16:00. -/
def FromPeriod (k : Nat) (m : Message) : Prop :=
  startOfPeriod k ≤ m.timestamp ∧ m.timestamp < endOfLastPeriod

instance (k : Nat) : DecidablePred (FromPeriod k) := fun _ => inferInstanceAs (Decidable (_ ∧ _))

variable {b : Build} {w₀ w w' : World} {m : Message} {k : Period} {stream : List Message}

theorem startOfPeriod_succ_toNat (k : Period) :
    (startOfPeriod (k + 1)).toNat = 32400000000000 + (k + 1) * 3600000000000 := by
  have hstart : startOfFirstPeriod.toNat = 32400000000000 := rfl
  have hhour : nanosecondsPerHour.toNat = 3600000000000 := rfl
  have hlt : k.val < 7 := k.isLt
  rw [startOfPeriod, UInt64.toNat_add, UInt64.toNat_mul, UInt64.toNat_ofNat', hstart, hhour]
  omega

theorem FromPeriod.counter (h : FromPeriod (k + 1) m) (p : UInt8) :
    k.val < (processHeaderTimestamp p m.timestamp).toNat := by
  have hle := UInt64.le_iff_toNat_le.1 h.1
  rw [startOfPeriod_succ_toNat] at hle
  have hstart : startOfFirstPeriod ≤ m.timestamp := by
    rw [UInt64.le_iff_toNat_le]
    show 32400000000000 ≤ m.timestamp.toNat
    omega
  have hin : InHours m.timestamp := ⟨hstart, h.2⟩
  rw [processHeaderTimestamp_eq, if_pos (period_of_inHours hin.1 hin.2), period_toNat hin]
  show k.val + 1 ≤ (m.timestamp.toNat - 32400000000000) / 3600000000000
  omega

section

variable {p : UInt8} {act : Action} {s : UInt16} {slots : Option PeriodicStats} {j : Period}

theorem slotsAfter_other (h : p.toNat ≠ j) :
    (slotsAfter p act s slots).getD PeriodicStats.initial j =
      slots.getD PeriodicStats.initial j := by
  cases act with
  | execution e =>
      rw [slotsAfter]
      split_ifs
      · cases slots with
        | none => rfl
        | some slots => exact if_neg h
      · rfl
  | tradingAction s' stock state =>
      rw [slotsAfter]
      split_ifs <;> rfl
  | _ => rfl

end

/-- **One later message** leaves the slots up to period `k` alone. -/
theorem VWAPManager.KeepsUpTo.step (h : w₀.vwapManager.KeepsUpTo k w.vwapManager)
    (hm : FromPeriod (k + 1) m) (hstep : consume b w m = .ok w') :
    w₀.vwapManager.KeepsUpTo k w'.vwapManager := by
  obtain ⟨act, -, hv, hperiod, -⟩ := consume_eq_ok.1 hstep
  constructor
  case issue =>
    intro s hs
    rw [← Finmap.lookup_isSome, slots_vwapStep hv, isSome_slotsAfter]
    exact Or.inl (Finmap.lookup_isSome.2 (h.issue s hs))
  case symbol =>
    intro s symbol hs
    rw [symbol_vwapStep hv, h.symbol s symbol hs, symbolAfter_some]
  case slots =>
    intro s j hj
    have hother : w'.currentPeriod.toNat ≠ j := by
      intro heq
      have hlt := hm.counter w.currentPeriod
      rw [← hperiod, heq] at hlt
      exact absurd hj (not_le.2 hlt)
    rw [slots_vwapStep hv, slotsAfter_other hother, h.slots s j hj]

theorem keeps_run (hrun : Run (Steps (consume b)) w₀ stream w)
    (hstream : ∀ m ∈ stream, FromPeriod (k + 1) m) :
    w₀.vwapManager.KeepsUpTo k w.vwapManager :=
  hrun.invariant (I := fun w => w₀.vwapManager.KeepsUpTo k w.vwapManager)
    (fun _ m _ hm h hst => h.step (hstream m hm) hst)
    ⟨fun _ hs => hs, fun _ _ hs => hs, fun _ _ _ => rfl⟩

/-- **Earlier reports do not depend on later hours.** Two streams that go on differently from
period `k + 1` on, until 16:00, write the same lines to the files 1 to `k + 1`. Neither the order
of the timestamps nor broken-trade messages make a difference, since all they change is the
candidates, and no candidate gets into a slot. -/
theorem earlier_reports_fixed {b : Build} {k : Period} {past suffix₁ suffix₂ : List Message}
    {w₁ w₂ : World} (hsuffix₁ : ∀ m ∈ suffix₁, FromPeriod (k + 1) m)
    (hsuffix₂ : ∀ m ∈ suffix₂, FromPeriod (k + 1) m)
    (hrun₁ : processAll b World.initial (past ++ suffix₁) = .ok w₁)
    (hrun₂ : processAll b World.initial (past ++ suffix₂) = .ok w₂) :
    ∀ i ≤ k, SameLines b w₁.vwapManager w₂.vwapManager i := by
  have hconsistent : ∀ {stream w}, processAll b World.initial stream = .ok w →
      w.vwapManager.Consistent := fun h => (World.consistent_initial.processAll h).maps
  obtain ⟨w₀, hpast, hrest₁⟩ := run_append_iff.1 (processAll_eq_ok.1 hrun₁)
  obtain ⟨w₀', hpast', hrest₂⟩ := run_append_iff.1 (processAll_eq_ok.1 hrun₂)
  obtain rfl : w₀ = w₀' := hpast.deterministic hpast'
  have hkeeps₁ := keeps_run hrest₁ hsuffix₁
  have hkeeps₂ := keeps_run hrest₂ hsuffix₂
  intro i hi
  exact (hkeeps₁.mono hi).sameLines (hkeeps₂.mono hi) (hconsistent (processAll_eq_ok.2 hpast))
    (hconsistent hrun₁) (hconsistent hrun₂)

/-- A trade in the first period. -/
def firstHour : List Message := [startsTrading 1 (clock 9 0), trade 1 (clock 9 30) 100 100 1]

theorem earlier_reports_fixed_firstHour :
    SameLines .release
      (World.after .release (firstHour ++ [trade 1 (clock 10 15) 101 10 2])).vwapManager
      (World.after .release
        (firstHour ++ [startsTrading 2 (clock 11 0), trade 2 (clock 15 0) 50 10 3])).vwapManager
      0 :=
  earlier_reports_fixed (by decide) (by decide) (processAll_after _ (by decide))
    (processAll_after _ (by decide)) 0 le_rfl

end NasdaqItch
