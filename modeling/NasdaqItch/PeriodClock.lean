import Mathlib.Data.List.Induction
import NasdaqItch.Basic

/-!
# The period counter follows the clock

A timestamp within the market's hours, 9:00 to 16:00, belongs to the period that is the number of
whole hours since 9:00; no other timestamp belongs to one of the seven periods, although before
9:00 the subtraction wraps and the quotient is cut to a byte (`period_lt_iff`).

Headers that come in time order therefore drive the counter like a clock that only runs during
the market's hours: it never goes back, and it shows the period of the last timestamp within them
(`counter_follows_clock`).
-/

namespace NasdaqItch

/-- 9:00 ≤ t < 16:00. -/
def InHours (t : UInt64) : Prop := startOfFirstPeriod ≤ t ∧ t < endOfLastPeriod

instance : DecidablePred InHours := fun _ => inferInstanceAs (Decidable (_ ∧ _))

/-- The whole hours since 9:00. -/
def hoursSinceStart (t : UInt64) : Nat :=
  (t.toNat - startOfFirstPeriod.toNat) / nanosecondsPerHour.toNat

/-- `currentPeriod` after headers with these timestamps. -/
def counterAfter (ts : List UInt64) : UInt8 := ts.foldl processHeaderTimestamp 0

/-- What the counter shows after these headers: the period of the latest timestamp within the
market's hours, or 0 when there was none. -/
inductive Shows (ts : List UInt64) (p : UInt8) : Prop
  | latest (t : UInt64) : t ∈ ts → InHours t → (∀ t' ∈ ts, InHours t' → t' ≤ t) →
      p.toNat = hoursSinceStart t → Shows ts p
  | none : (∀ t ∈ ts, ¬ InHours t) → p = 0 → Shows ts p

/-! ## One timestamp -/

/-- From 9:00 on nothing wraps, and 255 hours are enough for every day. -/
theorem period_toNat {t : UInt64} (h : InHours t) :
    (getCurrentPeriodFromTimestamp t).toNat = hoursSinceStart t := by
  have hle : 32400000000000 ≤ t.toNat := UInt64.le_iff_toNat_le.1 h.1
  have hlt : t.toNat < 57600000000000 := UInt64.lt_iff_toNat_lt.1 h.2
  rw [getCurrentPeriodFromTimestamp_toNat]
  show _ = (t.toNat - 32400000000000) / 3600000000000
  omega

theorem hoursSinceStart_mono {t t' : UInt64} (h : t ≤ t') :
    hoursSinceStart t ≤ hoursSinceStart t' :=
  Nat.div_le_div_right (Nat.sub_le_sub_right (UInt64.le_iff_toNat_le.1 h) _)

/-! ## A sequence of headers -/

variable {ts : List UInt64} {t : UInt64} {p : UInt8}

theorem counterAfter_concat (ht : t.toNat < 2 ^ 48) :
    counterAfter (ts ++ [t]) =
      if InHours t then getCurrentPeriodFromTimestamp t else counterAfter ts := by
  unfold counterAfter
  rw [List.foldl_concat, processHeaderTimestamp_eq]
  by_cases hin : InHours t
  · rw [if_pos hin, if_pos ((period_lt_iff ht).2 hin)]
  · rw [if_neg hin, if_neg fun h => hin ((period_lt_iff ht).1 h)]

theorem Shows.concat (h : Shows ts (counterAfter ts)) (ht : t.toNat < 2 ^ 48)
    (hlater : ∀ t' ∈ ts, t' ≤ t) : Shows (ts ++ [t]) (counterAfter (ts ++ [t])) := by
  rw [counterAfter_concat ht]
  by_cases hin : InHours t
  · rw [if_pos hin]
    refine .latest t List.mem_concat_self hin (fun t' ht' _ => ?_) (period_toNat hin)
    rcases List.mem_append.1 ht' with ht' | ht'
    · exact hlater t' ht'
    · exact UInt64.le_of_eq (List.mem_singleton.1 ht')
  · rw [if_neg hin]
    -- A header outside the hours is not the latest within them.
    have hold : ∀ t' ∈ ts ++ [t], InHours t' → t' ∈ ts := by
      intro t' ht' hin'
      rcases List.mem_append.1 ht' with ht' | ht'
      · exact ht'
      · exact absurd (List.mem_singleton.1 ht' ▸ hin') hin
    cases h with
    | latest u hu huin hmax hp =>
        exact .latest u (List.mem_append_left _ hu) huin
          (fun t' ht' hin' => hmax t' (hold t' ht' hin') hin') hp
    | none hnone hp => exact .none (fun t' ht' hin' => hnone t' (hold t' ht' hin') hin') hp

theorem shows_run (h48 : ∀ t ∈ ts, t.toNat < 2 ^ 48) (hsorted : ts.Pairwise (· ≤ ·)) :
    Shows ts (counterAfter ts) := by
  induction ts using List.reverseRecOn with
  | nil => exact .none nofun rfl
  | append_singleton ts t ih =>
      rw [List.pairwise_append] at hsorted
      obtain ⟨hsorted, -, hcross⟩ := hsorted
      have hshows := ih (fun t' ht' => h48 t' (List.mem_append_left _ ht')) hsorted
      exact hshows.concat (h48 t List.mem_concat_self)
        fun t' ht' => hcross t' ht' t (List.mem_singleton_self t)

theorem Shows.le_concat (h : Shows ts (counterAfter ts)) (ht : t.toNat < 2 ^ 48)
    (hlater : ∀ t' ∈ ts, t' ≤ t) : counterAfter ts ≤ counterAfter (ts ++ [t]) := by
  rw [counterAfter_concat ht]
  split_ifs with hin
  · cases h with
    | latest u hu _ _ hp =>
        rw [UInt8.le_iff_toNat_le, hp, period_toNat hin]
        exact hoursSinceStart_mono (hlater u hu)
    | none _ hp =>
        rw [hp]
        exact UInt8.zero_le
  · exact UInt8.le_refl _

/-- **The period counter follows the clock.** The period of a timestamp is one of the seven
exactly from 9:00 to 16:00, and is then the number of whole hours since 9:00. So with headers in
time order the counter never goes back, and after each header it shows the period of the latest
timestamp within the hours. -/
theorem counter_follows_clock :
    (∀ t : UInt64, t.toNat < 2 ^ 48 →
      ((getCurrentPeriodFromTimestamp t).toNat < numberOfPeriodsPerDay ↔ InHours t) ∧
      (InHours t → (getCurrentPeriodFromTimestamp t).toNat = hoursSinceStart t)) ∧
    ∀ ts : List UInt64, (∀ t ∈ ts, t.toNat < 2 ^ 48) → ts.Pairwise (· ≤ ·) →
      (∀ done t rest, ts = done ++ t :: rest → counterAfter done ≤ counterAfter (done ++ [t])) ∧
      ∀ done, done <+: ts → Shows done (counterAfter done) := by
  refine ⟨fun t ht => ⟨period_lt_iff ht, period_toNat⟩, fun ts h48 hsorted => ?_⟩
  have hpast : ∀ done, done <+: ts → Shows done (counterAfter done) := by
    intro done hdone
    exact shows_run (fun t ht => h48 t (hdone.subset ht)) (hsorted.sublist hdone.sublist)
  refine ⟨fun done t rest hts => ?_, hpast⟩
  subst hts
  rw [List.pairwise_append] at hsorted
  exact (hpast done (List.prefix_append _ _)).le_concat (h48 t (by simp))
    fun t' ht' => hsorted.2.2 t' ht' t List.mem_cons_self

/-- Headers at 8:00, 10:00, 12:00 and 17:00. -/
def dayHeaders : List UInt64 :=
  [28800000000000, 36000000000000, 43200000000000, 61200000000000]

theorem counter_follows_clock_day :
    (∀ done t rest, dayHeaders = done ++ t :: rest →
      counterAfter done ≤ counterAfter (done ++ [t])) ∧
    ∀ done, done <+: dayHeaders → Shows done (counterAfter done) :=
  counter_follows_clock.2 dayHeaders (by simp [dayHeaders]) (by decide)

/-- At the end of that day the counter shows noon's period. -/
example : counterAfter dayHeaders = 3 := by decide

end NasdaqItch
