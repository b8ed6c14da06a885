import Mathlib.Data.Fin.Basic
import Mathlib.Data.List.Nodup
import Mathlib.Data.Nat.ModEq
import Mathlib.Logic.Function.Basic

/-!
# Windows of a circular array

An array of `N` cells whose indices wrap around. Two indices bound a window: the cells from the
first up to the second, and all `N` of them where the two are equal. What lies outside the window
is stale and may be anything.

The window gives its first cell when its left end moves (`between_of_next_ne`), and gains the
value stored under its right end when that moves (`between_store`).
-/

namespace RingWindow

variable {α : Type*} {N : Nat}

/-- The index behind `i`, around the end. -/
def next (i : Fin N) : Fin N :=
  if h : i.val + 1 = N then ⟨0, i.pos⟩ else ⟨i.val + 1, Nat.lt_of_le_of_ne i.isLt h⟩

/-- How many cells there are from `i` up to `j`. -/
def gap (i j : Fin N) : Nat := if j ≤ i then N + j - i else j - i

/-- The `k` cells from `i` on. -/
def window (cells : Fin N → α) : Fin N → Nat → List α
  | _, 0 => []
  | i, k + 1 => cells i :: window cells (next i) k

/-- The cells from `i` up to `j`. -/
def between (cells : Fin N → α) (i j : Fin N) : List α := window cells i (gap i j)

variable {cells : Fin N → α} {i j : Fin N} {k : Nat} {x : α}

/-! ## Indices -/

theorem next_val (i : Fin N) : (next i).val = if i.val + 1 = N then 0 else i.val + 1 := by
  unfold next
  split_ifs <;> rfl

theorem gap_pos (i j : Fin N) : 0 < gap i j := by
  unfold gap
  have hi := i.isLt
  split_ifs with h
  · omega
  · exact Nat.sub_pos_of_lt (not_le.1 h)

theorem gap_self (i : Fin N) : gap i i = N := by
  unfold gap
  rw [if_pos (Fin.le_refl i), Nat.add_sub_cancel]

theorem gap_eq_one : gap i j = 1 ↔ next i = j := by
  rw [Fin.ext_iff, next_val]
  unfold gap
  have hi := i.isLt
  have hj := j.isLt
  simp only [Fin.le_def]
  split_ifs <;> omega

theorem gap_next_left (h : next i ≠ j) : gap (next i) j + 1 = gap i j := by
  rw [Ne, Fin.ext_iff, next_val] at h
  unfold gap
  have hi := i.isLt
  have hj := j.isLt
  simp only [Fin.le_def, next_val]
  split_ifs at h ⊢ <;> omega

theorem gap_next_right (h : i ≠ j) : gap i (next j) = gap i j + 1 := by
  rw [Ne, Fin.ext_iff] at h
  unfold gap
  have hi := i.isLt
  have hj := j.isLt
  simp only [Fin.le_def, next_val]
  split_ifs <;> omega

/-! ## Windows -/

@[simp] theorem length_window : (window cells i k).length = k := by
  induction k generalizing i with
  | zero => rfl
  | succ k ih => rw [window, List.length_cons, ih]

@[simp] theorem length_between : (between cells i j).length = gap i j := length_window

theorem window_gap_succ (cells : Fin N → α) (i j : Fin N) :
    window cells i (gap i j + 1) = between cells i j ++ [cells j] := by
  unfold between
  -- Induction on the length: the left end moves until it is right before `j`.
  induction hk : gap i j generalizing i with
  | zero => exact absurd hk (gap_pos i j).ne'
  | succ k ih =>
      rw [window]
      by_cases hnext : next i = j
      · obtain rfl : k = 0 := Nat.succ.inj (hk.symm.trans (gap_eq_one.2 hnext))
        rw [hnext]
        rfl
      · have hgap : gap (next i) j = k := Nat.succ.inj ((gap_next_left hnext).trans hk)
        rw [ih (next i) hgap]
        rfl

theorem window_update (h : i ≠ j) (hk : k ≤ gap i j) :
    window (Function.update cells j x) i k = window cells i k := by
  induction k generalizing i with
  | zero => rfl
  | succ k ih =>
      rw [window, window, Function.update_of_ne h]
      by_cases hnext : next i = j
      · rw [gap_eq_one.2 hnext] at hk
        obtain rfl : k = 0 := Nat.le_zero.1 (Nat.le_of_succ_le_succ hk)
        rfl
      · rw [← gap_next_left hnext] at hk
        rw [ih hnext (Nat.le_of_succ_le_succ hk)]

theorem between_of_next_ne (h : next i ≠ j) :
    between cells i j = cells i :: between cells (next i) j := by
  unfold between
  rw [← gap_next_left h, window]

/-- Storing under the right end and moving it adds the value at the end. -/
theorem between_store (h : i ≠ j) :
    between (Function.update cells j x) i (next j) = between cells i j ++ [x] := by
  have hall : window (Function.update cells j x) i (gap i j) = between cells i j :=
    window_update h le_rfl
  unfold between
  rw [gap_next_right h, window_gap_succ, Function.update_self]
  exact congrArg (· ++ [x]) hall

theorem window_eq_drop (h : i.val + k = N) :
    window cells i k = (List.ofFn cells).drop i := by
  induction k generalizing i with
  | zero => exact absurd h i.isLt.ne
  | succ k ih =>
      have hlt : i.val < (List.ofFn cells).length := by
        rw [List.length_ofFn]
        exact i.isLt
      rw [window, List.drop_eq_getElem_cons hlt, List.getElem_ofFn]
      by_cases hend : i.val + 1 = N
      · obtain rfl : k = 0 := by omega
        rw [List.drop_of_length_le (by rw [List.length_ofFn, hend])]
        rfl
      · have hnext : (next i).val = i.val + 1 := (next_val i).trans (if_neg hend)
        rw [ih (by omega), hnext]

theorem between_first (h : i.val = 0) : between cells i i = List.ofFn cells := by
  unfold between
  rw [gap_self, window_eq_drop (by rw [h, Nat.zero_add]), h, List.drop_zero]

/-! ## Counters

An index that is only ever moved on by one is a counter modulo `N`. Two counters less than `N`
apart are equal where their indices are. -/

/-- The index of a counter. -/
def ring (hN : 0 < N) (k : Nat) : Fin N := ⟨k % N, Nat.mod_lt k hN⟩

variable {hN : 0 < N} {m n : Nat}

theorem next_ring : next (ring hN n) = ring hN (n + 1) := by
  rw [Fin.ext_iff, next_val]
  show (if n % N + 1 = N then 0 else n % N + 1) = (n + 1) % N
  rw [Nat.add_mod_eq_ite]
  have hlt := Nat.mod_lt n hN
  by_cases hone : N = 1
  · subst hone
    simp [Nat.mod_one]
  · rw [Nat.mod_eq_of_lt (by omega : 1 < N)]
    split_ifs <;> omega

theorem ring_inj (hle : m ≤ n) (hlt : n < m + N) (h : ring hN m = ring hN n) : m = n := by
  have hmod : m ≡ n [MOD N] := Fin.ext_iff.1 h
  have hdvd : N ∣ n - m := (Nat.modEq_iff_dvd' hle).1 hmod
  have hzero : n - m = 0 := Nat.eq_zero_of_dvd_of_lt hdvd (by omega)
  omega

/-- A counter with the same index, at most `n` and not `n` itself, is a whole turn behind. -/
theorem ring_behind (hlt : m < n) (h : ring hN m = ring hN n) : m + N ≤ n := by
  by_contra hnear
  have heq := ring_inj hlt.le (by omega) h
  exact hlt.ne heq

theorem ring_add_self : ring hN (n + N) = ring hN n := by
  rw [ring, ring, Fin.mk.injEq]
  exact Nat.add_mod_right n N

theorem gap_ring (hlt : m < n) (hle : n ≤ m + N) : gap (ring hN m) (ring hN n) = n - m := by
  induction hk : n - m generalizing m with
  | zero => omega
  | succ k ih =>
      by_cases hnext : m + 1 = n
      · rw [gap_eq_one.2 (hnext ▸ next_ring)]
        omega
      · have hne : next (ring hN m) ≠ ring hN n := by
          rw [next_ring]
          exact fun heq => hnext (ring_inj (by omega) (by omega) heq)
        rw [← gap_next_left hne, next_ring, ih (by omega) (by omega) (by omega)]

theorem window_ring : window cells (ring hN m) k =
    (List.range k).map fun d => cells (ring hN (m + d)) := by
  induction k generalizing m with
  | zero => rfl
  | succ k ih =>
      rw [window, next_ring, ih, List.range_succ_eq_map, List.map_cons, List.map_map]
      refine congrArg (_ :: ·) (List.map_congr_left fun d _ => ?_)
      show cells (ring hN (m + 1 + d)) = cells (ring hN (m + (d + 1)))
      rw [Nat.add_right_comm, Nat.add_assoc]

theorem counter_unique (hlt : m < n) (hle : n ≤ m + N)
    (hnodup : (between cells (ring hN m) (ring hN n)).Nodup) {j k : Nat} (hj : m ≤ j ∧ j < n)
    (hk : m ≤ k ∧ k < n) (h : cells (ring hN j) = cells (ring hN k)) : j = k := by
  unfold between at hnodup
  rw [gap_ring hlt hle, window_ring] at hnodup
  have hsame := List.inj_on_of_nodup_map hnodup (List.mem_range.2 (by omega : j - m < n - m))
    (List.mem_range.2 (by omega : k - m < n - m))
  rw [Nat.add_sub_cancel' hj.1, Nat.add_sub_cancel' hk.1] at hsame
  have hcounter := hsame h
  omega

end RingWindow
