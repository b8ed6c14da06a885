import Mathlib.Data.List.Basic

/-!
# Bounded queues

A first-in first-out queue of at most `C` elements. Its length is part of its type, so that a
queue that holds too much cannot be built; `push` fails on a full queue and `pop` on an empty one.
-/

/-- The elements, the oldest first. -/
structure Fifo (α : Type*) (C : Nat) where
  items : List α
  length_le : items.length ≤ C

namespace Fifo

variable {α : Type*} {C : Nat}

def empty : Fifo α C := ⟨[], Nat.zero_le C⟩

/-- How many elements can be popped. -/
def readAvailable (q : Fifo α C) : Nat := q.items.length

/-- How many elements can be pushed. -/
def writeAvailable (q : Fifo α C) : Nat := C - q.items.length

def push (q : Fifo α C) (a : α) : Option (Fifo α C) :=
  if h : q.items.length < C then
    some ⟨q.items ++ [a], by rw [List.length_append, List.length_singleton]; exact h⟩
  else none

def pop : Fifo α C → Option (α × Fifo α C)
  | ⟨[], _⟩ => none
  | ⟨a :: items, h⟩ => some (a, ⟨items, Nat.le_of_succ_le h⟩)

variable {q q' : Fifo α C} {a : α}

theorem readAvailable_eq_zero : q.readAvailable = 0 ↔ q.items = [] := List.length_eq_zero_iff

theorem writeAvailable_eq_zero : q.writeAvailable = 0 ↔ ¬ q.items.length < C := by
  unfold writeAvailable
  omega

theorem push_items (h : q.push a = some q') : q'.items = q.items ++ [a] := by
  unfold push at h
  split_ifs at h
  cases h
  rfl

theorem push_eq_none : q.push a = none ↔ ¬ q.items.length < C := by
  unfold push
  split_ifs with h
  · simp [h]
  · simp [h]

theorem pop_items (h : q.pop = some (a, q')) : q.items = a :: q'.items := by
  obtain ⟨items, hle⟩ := q
  cases items with
  | nil => exact absurd h nofun
  | cons x items =>
      cases h
      rfl

theorem pop_eq_none : q.pop = none ↔ q.items = [] := by
  obtain ⟨items, hle⟩ := q
  cases items with
  | nil => exact ⟨fun _ => rfl, fun _ => rfl⟩
  | cons x items => exact ⟨nofun, nofun⟩

/-! ## Queues with the same image -/

section Image

variable {β γ : Type*} {f : α → γ} {g : β → γ} {r : Fifo α C} {p : Fifo β C} {b : β}

theorem length_eq_of_map (h : q.items.map f = p.items.map g) :
    q.items.length = p.items.length := by
  have hlength := congrArg List.length h
  rwa [List.length_map, List.length_map] at hlength

theorem push_map (h : q.items.map f = p.items.map g) (hfg : f a = g b)
    (hpush : q.push a = some r) :
    ∃ p', p.push b = some p' ∧ r.items.map f = p'.items.map g := by
  have hroom : p.push b ≠ none := by
    intro hnone
    have hfull := push_eq_none.1 hnone
    rw [← length_eq_of_map h, ← push_eq_none (a := a), hpush] at hfull
    exact absurd hfull (Option.some_ne_none r)
  obtain ⟨p', hp'⟩ := Option.ne_none_iff_exists'.1 hroom
  refine ⟨p', hp', ?_⟩
  rw [push_items hpush, push_items hp', List.map_append, List.map_append, h, List.map_singleton,
    List.map_singleton, hfg]

theorem pop_map (h : q.items.map f = p.items.map g) (hpop : q.pop = some (a, r)) :
    ∃ b p', p.pop = some (b, p') ∧ f a = g b ∧ r.items.map f = p'.items.map g := by
  have hq := pop_items hpop
  have hnonempty : p.pop ≠ none := by
    intro hnone
    rw [pop_eq_none.1 hnone, hq] at h
    exact List.cons_ne_nil _ _ h
  obtain ⟨⟨b, p'⟩, hp'⟩ := Option.ne_none_iff_exists'.1 hnonempty
  rw [hq, pop_items hp', List.map_cons, List.map_cons] at h
  obtain ⟨hab, hrest⟩ := List.cons.inj h
  exact ⟨b, p', hp', hab, hrest⟩

end Image

end Fifo
