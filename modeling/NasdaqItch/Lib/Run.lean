import Mathlib.Data.List.Induction

/-!
# Runs of a step relation

A machine that reads a list of inputs, one step an input. Steps are a relation, so that a
failing step is one with no result; a step function with values in `Except` is read as the
relation of its successful results (`Steps`).

* `Run.invariant`, `Run.history`: what every step preserves, every run preserves, also when the
  property talks about the inputs read so far.
* `Run.simulate`, `Run.simulate_filter`, `Run.simulate_filterMap`: forward simulation. A run of one
  machine is matched step by step by another, which may leave out inputs.
* `Run.unwinding`: two runs over inputs with the same relevant part. Irrelevant steps keep the
  relation on their own side and relevant ones keep it in lockstep, so the runs end related.
* `foldlM_eq_error`, `map_foldlM_congr`, `run_and_iff`: where a fold fails, folds that agree in a
  projection, and runs whose steps meet a condition.
* `collect`: what a run lets out, step by step.
-/

namespace Runs

universe u

variable {σ τ : Type u} {ι ε γ : Type*}

/-! ## Results of monadic steps -/

@[simp] theorem bind_eq_ok {α β : Type u} {x : Except ε α} {f : α → Except ε β} {b : β} :
    (x >>= f) = .ok b ↔ ∃ a, x = .ok a ∧ f a = .ok b := by
  cases x <;> simp [bind, Except.bind]

@[simp] theorem pure_eq_ok {α : Type u} {a b : α} :
    (pure a : Except ε α) = .ok b ↔ a = b := by
  simp [pure, Except.pure]

@[simp] theorem ok_bind {α β : Type u} {a : α} {f : α → Except ε β} :
    (Except.ok a >>= f) = f a := rfl

theorem error_bind {α β : Type u} {e : ε} {f : α → Except ε β} :
    (Except.error e >>= f) = .error e := rfl

@[simp] theorem bind_ok_comp {α β : Type u} {x : Except ε α} {f : α → β} :
    (x >>= fun a => .ok (f a)) = f <$> x := rfl

@[simp] theorem map_eq_ok {α β : Type u} {x : Except ε α} {f : α → β} {b : β} :
    f <$> x = .ok b ↔ ∃ a, x = .ok a ∧ f a = b := by
  cases x <;> simp [Functor.map, Except.map]

theorem mapM_ok {α β : Type u} {l : List α} {f : α → Except ε β} {g : α → β}
    (h : ∀ x ∈ l, f x = .ok (g x)) : l.mapM f = .ok (l.map g) := by
  induction l with
  | nil => rfl
  | cons x l ih =>
      rw [List.mapM_cons, h x List.mem_cons_self, ih fun y hy => h y (List.mem_cons_of_mem _ hy)]
      rfl

/-- The successful steps of a step function. -/
def Steps (f : σ → ι → Except ε σ) (s : σ) (a : ι) (t : σ) : Prop := f s a = .ok t

/-! ## Runs -/

/-- Reading the inputs in order takes the first state to the last. -/
inductive Run (step : σ → ι → σ → Prop) : σ → List ι → σ → Prop
  | nil (s : σ) : Run step s [] s
  | cons {s t u : σ} {a : ι} {l : List ι} :
      step s a t → Run step t l u → Run step s (a :: l) u

variable {step : σ → ι → σ → Prop} {s t u : σ} {a : ι} {l l' : List ι}

@[simp] theorem run_nil_iff : Run step s [] t ↔ t = s := by
  constructor
  · intro h
    cases h
    rfl
  · rintro rfl
    exact .nil _

@[simp] theorem run_cons_iff : Run step s (a :: l) u ↔ ∃ t, step s a t ∧ Run step t l u := by
  constructor
  · intro h
    cases h with
    | cons hstep hrun => exact ⟨_, hstep, hrun⟩
  · rintro ⟨t, hstep, hrun⟩
    exact .cons hstep hrun

theorem run_append_iff :
    Run step s (l ++ l') u ↔ ∃ t, Run step s l t ∧ Run step t l' u := by
  induction l generalizing s with
  | nil => simp
  | cons a l ih =>
      simp only [List.cons_append, run_cons_iff, ih]
      constructor
      · rintro ⟨t, hstep, v, hl, hl'⟩
        exact ⟨v, ⟨t, hstep, hl⟩, hl'⟩
      · rintro ⟨v, ⟨t, hstep, hl⟩, hl'⟩
        exact ⟨t, hstep, v, hl, hl'⟩

theorem run_concat_iff : Run step s (l ++ [a]) u ↔ ∃ t, Run step s l t ∧ step t a u := by
  simp only [run_append_iff, run_cons_iff, run_nil_iff]
  constructor
  · rintro ⟨t, hl, v, hstep, rfl⟩
    exact ⟨t, hl, hstep⟩
  · rintro ⟨t, hl, hstep⟩
    exact ⟨t, hl, u, hstep, rfl⟩

theorem run_map_iff {κ : Type*} {f : κ → ι} {l : List κ} :
    Run step s (l.map f) t ↔ Run (fun s c t => step s (f c) t) s l t := by
  induction l generalizing s with
  | nil => simp
  | cons c l ih => simp [ih]

theorem foldlM_eq_ok {f : σ → ι → Except ε σ} :
    l.foldlM f s = .ok t ↔ Run (Steps f) s l t := by
  induction l generalizing s with
  | nil => rw [List.foldlM_nil, pure_eq_ok, run_nil_iff, eq_comm]
  | cons a l ih => simp [Steps, ih]

/-- The fold fails at the first input whose step fails. -/
theorem foldlM_eq_error {f : σ → ι → Except ε σ} {e : ε} :
    l.foldlM f s = .error e ↔
      ∃ past a rest t, l = past ++ a :: rest ∧ past.foldlM f s = .ok t ∧ f t a = .error e := by
  induction l generalizing s with
  | nil => simp [pure, Except.pure]
  | cons a l ih =>
      rw [List.foldlM_cons]
      constructor
      · intro h
        cases hfa : f s a with
        | error e' =>
            rw [hfa, error_bind] at h
            exact ⟨[], a, l, s, rfl, rfl, hfa.trans h⟩
        | ok t =>
            rw [hfa, ok_bind, ih] at h
            obtain ⟨past, a', rest, t', rfl, hpast, hfail⟩ := h
            refine ⟨a :: past, a', rest, t', rfl, ?_, hfail⟩
            rw [List.foldlM_cons, hfa, ok_bind, hpast]
      · rintro ⟨past, a', rest, t', hl, hpast, hfail⟩
        cases past with
        | nil =>
            obtain ⟨rfl, rfl⟩ := List.cons.inj hl
            rw [Except.ok.inj hpast, hfail, error_bind]
        | cons a'' past =>
            obtain ⟨rfl, rfl⟩ := List.cons.inj hl
            rw [List.foldlM_cons, bind_eq_ok] at hpast
            obtain ⟨t, hfa, hpast⟩ := hpast
            rw [hfa, ok_bind, ih]
            exact ⟨past, a', rest, t', rfl, hpast, hfail⟩

/-- Two folds whose steps agree in the projection agree in it, failures included. -/
theorem map_foldlM_congr {f g : σ → ι → Except ε σ} {φ : σ → τ} {I : σ → Prop}
    (hf : ∀ s a t, I s → f s a = .ok t → I t) (hg : ∀ s a t, I s → g s a = .ok t → I t)
    (hstep : ∀ s s' a, I s → I s' → φ s = φ s' → φ <$> f s a = φ <$> g s' a) {s' : σ}
    (hs : I s) (hs' : I s') (h : φ s = φ s') : φ <$> l.foldlM f s = φ <$> l.foldlM g s' := by
  induction l generalizing s s' with
  | nil => exact congrArg Except.ok h
  | cons a l ih =>
      rw [List.foldlM_cons, List.foldlM_cons]
      have hsame := hstep s s' a hs hs' h
      cases hfa : f s a with
      | error e =>
          rw [hfa] at hsame
          cases hga : g s' a with
          | error e' =>
              rw [hga] at hsame
              exact congrArg Except.error (Except.error.inj hsame)
          | ok t' =>
              rw [hga] at hsame
              exact absurd hsame nofun
      | ok t =>
          rw [hfa] at hsame
          cases hga : g s' a with
          | error e' =>
              rw [hga] at hsame
              exact absurd hsame nofun
          | ok t' =>
              rw [hga] at hsame
              exact ih (hf s a t hs hfa) (hg s' a t' hs' hga) (Except.ok.inj hsame)

/-- A run whose steps also meet a condition: the condition holds at each state of the run. -/
theorem run_and_iff {f : σ → ι → Except ε σ} {P : σ → ι → Prop} :
    Run (fun s a t => Steps f s a t ∧ P s a) s l t ↔ Run (Steps f) s l t ∧
      ∀ past a rest v, l = past ++ a :: rest → past.foldlM f s = .ok v → P v a := by
  induction l generalizing s with
  | nil => simp
  | cons a l ih =>
      simp only [run_cons_iff, ih]
      constructor
      · rintro ⟨v, ⟨hst, hP⟩, hrun, hall⟩
        refine ⟨⟨v, hst, hrun⟩, fun past a' rest v' hl hpast => ?_⟩
        cases past with
        | nil =>
            obtain ⟨rfl, rfl⟩ := List.cons.inj hl
            exact Except.ok.inj hpast ▸ hP
        | cons a'' past =>
            obtain ⟨rfl, rfl⟩ := List.cons.inj hl
            have hv : f s a = .ok v := hst
            rw [List.foldlM_cons, hv, ok_bind] at hpast
            exact hall past a' rest v' rfl hpast
      · rintro ⟨⟨v, hst, hrun⟩, hall⟩
        have hv : f s a = .ok v := hst
        refine ⟨v, ⟨hst, hall [] a l s rfl rfl⟩, hrun, fun past a' rest v' hl hpast => ?_⟩
        refine hall (a :: past) a' rest v' (congrArg (a :: ·) hl) ?_
        rw [List.foldlM_cons, hv, ok_bind, hpast]

theorem Run.deterministic {f : σ → ι → Except ε σ} (h : Run (Steps f) s l t)
    (h' : Run (Steps f) s l u) : t = u := by
  rw [← foldlM_eq_ok] at h h'
  exact Except.ok.inj (h.symm.trans h')

/-! ## Invariants -/

/-- What every step on an input of the run preserves, the run preserves. -/
theorem Run.invariant {I : σ → Prop} (h : Run step s l t)
    (hstep : ∀ s a t, a ∈ l → I s → step s a t → I t) (hs : I s) : I t := by
  induction h with
  | nil => exact hs
  | cons hst _ ih =>
      exact ih (fun s a t ha => hstep s a t (List.mem_cons_of_mem _ ha))
        (hstep _ _ _ List.mem_cons_self hs hst)

/-- An invariant that also talks about the inputs read since the start. -/
theorem Run.history {I : List ι → σ → Prop} {s₀ : σ} (h : Run step s₀ l t) (h₀ : I [] s₀)
    (hstep : ∀ past s a t, Run step s₀ past s → I past s → step s a t → I (past ++ [a]) t) :
    I l t := by
  induction l using List.reverseRecOn generalizing t with
  | nil =>
      rw [run_nil_iff] at h
      exact h ▸ h₀
  | append_singleton l a ih =>
      obtain ⟨s, hl, hst⟩ := run_concat_iff.1 h
      exact hstep l s a t hl (ih hl) hst

/-! ## Two machines -/

/-- Forward simulation: each step of the first machine is matched by one of the second. -/
theorem Run.simulate {step' : τ → ι → τ → Prop} {R : σ → τ → Prop} {s' : τ}
    (h : Run step s l t) (hR : R s s')
    (hstep : ∀ s a t s', a ∈ l → R s s' → step s a t → ∃ t', step' s' a t' ∧ R t t') :
    ∃ t', Run step' s' l t' ∧ R t t' := by
  induction h generalizing s' with
  | nil => exact ⟨s', .nil _, hR⟩
  | cons hst _ ih =>
      obtain ⟨t', hst', hR'⟩ := hstep _ _ _ _ List.mem_cons_self hR hst
      obtain ⟨u', hrun', hR''⟩ :=
        ih hR' fun s a t s' ha => hstep s a t s' (List.mem_cons_of_mem _ ha)
      exact ⟨u', .cons hst' hrun', hR''⟩

/-- Forward simulation over the inputs that are kept: a step on any other input keeps the
relation alone. -/
theorem Run.simulate_filter {step' : τ → ι → τ → Prop} {R : σ → τ → Prop} {keep : ι → Bool}
    {s' : τ} (h : Run step s l t) (hR : R s s')
    (hskip : ∀ s a t s', a ∈ l → keep a = false → R s s' → step s a t → R t s')
    (hkeep : ∀ s a t s', a ∈ l → keep a = true → R s s' → step s a t →
      ∃ t', step' s' a t' ∧ R t t') :
    ∃ t', Run step' s' (l.filter keep) t' ∧ R t t' := by
  induction h generalizing s' with
  | nil => exact ⟨s', .nil _, hR⟩
  | @cons s v t a l hst _ ih =>
      have hskip' : ∀ s c t s', c ∈ l → keep c = false → R s s' → step s c t → R t s' :=
        fun s c t s' hc => hskip s c t s' (List.mem_cons_of_mem _ hc)
      have hkeep' : ∀ s c t s', c ∈ l → keep c = true → R s s' → step s c t →
          ∃ t', step' s' c t' ∧ R t t' :=
        fun s c t s' hc => hkeep s c t s' (List.mem_cons_of_mem _ hc)
      cases hka : keep a with
      | false =>
          rw [List.filter_cons_of_neg (by simp [hka])]
          exact ih (hskip _ _ _ _ List.mem_cons_self hka hR hst) hskip' hkeep'
      | true =>
          obtain ⟨v', hst', hR'⟩ := hkeep _ _ _ _ List.mem_cons_self hka hR hst
          obtain ⟨t', hrun', hR''⟩ := ih hR' hskip' hkeep'
          rw [List.filter_cons_of_pos hka]
          exact ⟨t', .cons hst' hrun', hR''⟩

/-- Forward simulation by a machine with coarser inputs: a step whose input is not mapped to one
of them keeps the relation alone. -/
theorem Run.simulate_filterMap {κ : Type*} {step' : τ → κ → τ → Prop} {R : σ → τ → Prop}
    {f : ι → Option κ} {s' : τ} (h : Run step s l t) (hR : R s s')
    (hskip : ∀ s a t s', f a = none → R s s' → step s a t → R t s')
    (hmatch : ∀ s a c t s', f a = some c → R s s' → step s a t → ∃ t', step' s' c t' ∧ R t t') :
    ∃ t', Run step' s' (l.filterMap f) t' ∧ R t t' := by
  induction h generalizing s' with
  | nil => exact ⟨s', .nil _, hR⟩
  | @cons s v t a l hst _ ih =>
      cases hfa : f a with
      | none =>
          rw [List.filterMap_cons_none hfa]
          exact ih (hskip _ _ _ _ hfa hR hst)
      | some c =>
          obtain ⟨v', hst', hR'⟩ := hmatch _ _ _ _ _ hfa hR hst
          obtain ⟨t', hrun', hR''⟩ := ih hR'
          rw [List.filterMap_cons_some hfa]
          exact ⟨t', .cons hst' hrun', hR''⟩

/-- **Unwinding.** Two runs whose inputs have the same relevant part end related, when
irrelevant steps keep the relation on either side and relevant ones keep it together. -/
theorem Run.unwinding {R : σ → σ → Prop} {P : ι → Prop} {relevant : ι → Bool} {s' t' : σ}
    (h : Run step s l t) (h' : Run step s' l' t') (hR : R s s')
    (hl : ∀ a ∈ l, P a) (hl' : ∀ a ∈ l', P a) (hsame : l.filter relevant = l'.filter relevant)
    (hleft : ∀ s a t s', P a → relevant a = false → R s s' → step s a t → R t s')
    (hright : ∀ s a s' t', P a → relevant a = false → R s s' → step s' a t' → R s t')
    (hboth : ∀ s a t s' t', P a → relevant a = true → R s s' → step s a t → step s' a t' → R t t') :
    R t t' := by
  induction h generalizing l' s' with
  | nil s =>
      -- Nothing relevant is left for the second run.
      have hnone : ∀ a ∈ l', relevant a = false := by
        intro a ha
        by_contra hrel
        have : a ∈ l'.filter relevant := List.mem_filter.2 ⟨ha, by simpa using hrel⟩
        simp [← hsame] at this
      exact h'.invariant (I := fun v => R s v)
        (fun v a w ha hv hst => hright _ _ _ _ (hl' a ha) (hnone a ha) hv hst) hR
  | @cons s v t a l hst hrun ih =>
      have hla : P a := hl a List.mem_cons_self
      have htail : ∀ b ∈ l, P b := fun b hb => hl b (List.mem_cons_of_mem _ hb)
      cases hrel : relevant a with
      | false =>
          rw [List.filter_cons_of_neg (by simp [hrel])] at hsame
          exact ih h' (hleft _ _ _ _ hla hrel hR hst) htail hl' hsame
      | true =>
          rw [List.filter_cons_of_pos hrel] at hsame
          -- The second run reaches the same input after some irrelevant ones.
          obtain ⟨pre, post, rfl, hpre, -, hpost⟩ := List.filter_eq_cons_iff.1 hsame.symm
          obtain ⟨w, hw, hrest⟩ := run_append_iff.1 h'
          obtain ⟨w', hst', hrun'⟩ := run_cons_iff.1 hrest
          have hRw : R s w := hw.invariant (I := fun v => R s v)
            (fun v b x hb hv hstb => hright _ _ _ _ (hl' b (by simp [hb]))
              (by simpa using hpre b hb) hv hstb) hR
          exact ih hrun' (hboth _ _ _ _ _ hla hrel hRw hst hst') htail
            (fun b hb => hl' b (by simp [hb])) hpost.symm

/-! ## Observations -/

/-- What the steps of a run let out, in order, up to the first step that fails. -/
def collect (f : σ → ι → Except ε σ) (obs : σ → ι → List γ) : σ → List ι → List γ
  | _, [] => []
  | s, a :: l =>
      obs s a ++ match f s a with
        | .ok t => collect f obs t l
        | .error _ => []

variable {f : σ → ι → Except ε σ} {obs : σ → ι → List γ}

@[simp] theorem collect_nil : collect f obs s [] = [] := rfl

theorem collect_cons (h : f s a = .ok t) :
    collect f obs s (a :: l) = obs s a ++ collect f obs t l := by
  simp [collect, h]

theorem collect_append (h : Run (Steps f) s l t) :
    collect f obs s (l ++ l') = collect f obs s l ++ collect f obs t l' := by
  induction h with
  | nil => rfl
  | cons hst _ ih =>
      rw [List.cons_append, collect_cons hst, collect_cons hst, ih, List.append_assoc]

theorem collect_concat (h : Run (Steps f) s l t) :
    collect f obs s (l ++ [a]) = collect f obs s l ++ obs t a := by
  rw [collect_append h]
  cases hfa : f t a <;> simp [collect, hfa]

end Runs
