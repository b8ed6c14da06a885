import Mathlib.Order.WellFounded
import NasdaqItch.Lib.Run

/-!
# Fair schedules

Infinite schedules of a machine whose inputs are the steps of several parties. At each moment one
party takes a step or none does. A schedule is fair if no party that can take a step from some
moment on is passed over forever.

`Schedule.eventually` is the rule for termination. A rank never goes up; while it stays the same,
one party is the helpful one, which can take a step, and whose steps bring the rank down.
-/

namespace Runs

universe u

variable {σ : Type u} {ι κ : Type*} {step : σ → ι → σ → Prop} {party : ι → κ}

/-- The states, and the step at each moment, if there is one. -/
structure Schedule (step : σ → ι → σ → Prop) where
  state : Nat → σ
  input : Nat → Option ι
  moves : ∀ n a, input n = some a → step (state n) a (state (n + 1))
  rests : ∀ n, input n = none → state (n + 1) = state n

/-- A party can take a step. -/
def Enabled (step : σ → ι → σ → Prop) (party : ι → κ) (p : κ) (s : σ) : Prop :=
  ∃ a t, party a = p ∧ step s a t

namespace Schedule

/-- Every party moves again and again, or again and again it cannot. -/
def Fair (party : ι → κ) (e : Schedule step) : Prop :=
  ∀ p n, ∃ m, n ≤ m ∧
    ((∃ a, e.input m = some a ∧ party a = p) ∨ ¬ Enabled step party p (e.state m))

variable {e : Schedule step} {I Done : σ → Prop}

theorem invariant (hI : I (e.state 0)) (hstep : ∀ s a t, I s → step s a t → I t) (n : Nat) :
    I (e.state n) := by
  induction n with
  | zero => exact hI
  | succ n ih =>
      cases hn : e.input n with
      | none => exact (e.rests n hn).symm ▸ ih
      | some a => exact hstep _ _ _ ih (e.moves n a hn)

variable {α : Type*} [Preorder α] {rank : σ → α} {helpful : σ → κ}

/-- While nothing brings the rank down, the helpful party stays the same. -/
theorem rank_lt_or_eq
    (hother : ∀ n a, e.input n = some a → rank (e.state (n + 1)) < rank (e.state n) ∨
      (rank (e.state (n + 1)) = rank (e.state n) ∧
        helpful (e.state (n + 1)) = helpful (e.state n)))
    {n m : Nat} (h : n ≤ m) : (∃ k, n ≤ k ∧ rank (e.state k) < rank (e.state n)) ∨
      (rank (e.state m) = rank (e.state n) ∧ helpful (e.state m) = helpful (e.state n)) := by
  induction m, h using Nat.le_induction with
  | base => exact Or.inr ⟨rfl, rfl⟩
  | succ m hm ih =>
      rcases ih with hlt | ⟨hrank, hhelpful⟩
      · exact Or.inl hlt
      · cases hinput : e.input m with
        | none =>
            rw [e.rests m hinput]
            exact Or.inr ⟨hrank, hhelpful⟩
        | some a =>
            rcases hother m a hinput with hlt | ⟨hrank', hhelpful'⟩
            · exact Or.inl ⟨m + 1, Nat.le_succ_of_le hm, hrank ▸ hlt⟩
            · exact Or.inr ⟨hrank'.trans hrank, hhelpful'.trans hhelpful⟩

/-- **A fair schedule gets done.** -/
theorem eventually [WellFoundedLT α] (hfair : e.Fair party) (hI : ∀ n, I (e.state n))
    (henabled : ∀ s, I s → ¬ Done s → Enabled step party (helpful s) s)
    (hhelp : ∀ s a t, I s → ¬ Done s → step s a t → party a = helpful s → rank t < rank s)
    (hother : ∀ s a t, I s → ¬ Done s → step s a t →
      rank t < rank s ∨ (rank t = rank s ∧ helpful t = helpful s)) :
    ∃ n, Done (e.state n) := by
  by_contra hnever
  rw [not_exists] at hnever
  -- From every moment on, the rank goes down again.
  have hdown : ∀ n, ∃ m, n ≤ m ∧ rank (e.state m) < rank (e.state n) := by
    intro n
    obtain ⟨m, hm, hmove⟩ := hfair (helpful (e.state n)) n
    rcases rank_lt_or_eq (fun n a hinput => hother _ _ _ (hI n) (hnever n) (e.moves n a hinput))
      hm with hlt | ⟨hrank, hhelpful⟩
    · exact hlt
    · rcases hmove with ⟨a, hinput, hparty⟩ | hdisabled
      · have hlt := hhelp _ _ _ (hI m) (hnever m) (e.moves m a hinput)
          (hparty.trans hhelpful.symm)
        exact ⟨m + 1, Nat.le_succ_of_le hm, hrank ▸ hlt⟩
      · exact absurd (hhelpful ▸ henabled _ (hI m) (hnever m)) hdisabled
  have hnone : ∀ a, ∀ n, rank (e.state n) ≠ a := by
    intro a
    induction a using WellFoundedLT.induction with
    | ind a ih =>
        intro n hn
        obtain ⟨m, -, hlt⟩ := hdown n
        exact ih _ (hn ▸ hlt) m rfl
  exact hnone _ 0 rfl

/-- A run that ends where no party can take a step is a fair schedule. -/
theorem exists_fair {s t : σ} {l : List ι} (h : Run step s l t)
    (hend : ∀ p, ¬ Enabled step party p t) :
    ∃ e : Schedule step, e.state 0 = s ∧ e.Fair party := by
  induction h with
  | nil s =>
      exact ⟨⟨fun _ => s, fun _ => none, nofun, fun _ _ => rfl⟩, rfl,
        fun p n => ⟨n, le_rfl, Or.inr (hend p)⟩⟩
  | @cons s v t a l hst _ ih =>
      obtain ⟨e, hstart, hfair⟩ := ih hend
      refine ⟨⟨fun n => n.casesOn s e.state, fun n => n.casesOn (some a) e.input, ?_, ?_⟩, rfl, ?_⟩
      · intro n c hinput
        cases n with
        | zero =>
            obtain rfl := Option.some.inj hinput
            have hfirst : step s a (e.state 0) := hstart.symm ▸ hst
            exact hfirst
        | succ n => exact e.moves n c hinput
      · intro n hinput
        cases n with
        | zero => exact absurd hinput (Option.some_ne_none a)
        | succ n => exact e.rests n hinput
      · intro p n
        obtain ⟨m, hm, hmove⟩ := hfair p n
        exact ⟨m + 1, Nat.le_succ_of_le hm, hmove⟩

end Schedule

end Runs
