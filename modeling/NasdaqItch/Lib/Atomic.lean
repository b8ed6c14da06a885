import Mathlib.Data.List.Basic

/-!
# Release stores and acquire loads

A variable that one thread stores to and another thread loads, with the values it has had in
modification order. The storing thread always sees the latest value. A load of the other thread
may return an old one, but none older than what this thread has already seen; how far it has seen
is its *view*, a position in the order.

A store publishes what its thread has done before. An access to other memory is stamped with the
number of stores its thread had made by then: it is in the past of a thread whose view is greater
than the stamp.
-/

/-- The initial value and the stores, in modification order. -/
structure Atomic (α : Type*) where
  initial : α
  stores : List α

namespace Atomic

variable {α : Type*}

/-- The position of the latest value; the initial one is at position 0. -/
def latest (x : Atomic α) : Nat := x.stores.length

def value? (x : Atomic α) (k : Nat) : Option α := (x.initial :: x.stores)[k]?

/-- What the storing thread loads. -/
def current (x : Atomic α) : α := x.stores.getLastD x.initial

/-- A release store. -/
def store (x : Atomic α) (a : α) : Atomic α := { x with stores := x.stores ++ [a] }

/-- An acquire load by a thread with this view: it returns the value at position `k`, and `k` is
the view from then on. -/
def Loads (x : Atomic α) (view k : Nat) (a : α) : Prop := view ≤ k ∧ x.value? k = some a

/-- The values are those of a sequence. -/
def Follows (x : Atomic α) (f : Nat → α) : Prop := x.initial :: x.stores =
  (List.range (x.latest + 1)).map f

variable {x : Atomic α} {f : Nat → α} {a b : α} {view k : Nat}

@[simp] theorem latest_store : (x.store a).latest = x.latest + 1 := by
  unfold latest store
  rw [List.length_append, List.length_singleton]

@[simp] theorem current_store : (x.store a).current = a := by
  unfold current store
  rw [List.getLastD_concat]

theorem value?_store (h : (x.store a).value? k = some b) :
    x.value? k = some b ∨ k = x.latest + 1 ∧ b = a := by
  unfold Atomic.value? store at h
  rw [← List.cons_append, List.getElem?_append] at h
  split_ifs at h with hk
  · exact Or.inl h
  · obtain ⟨hlt, hvalue⟩ := List.getElem?_eq_some_iff.1 h
    rw [List.length_cons] at hk
    rw [List.length_singleton, List.length_cons] at hlt
    have hlatest : k = x.latest + 1 := by
      unfold latest
      omega
    rw [List.getElem_singleton] at hvalue
    exact Or.inr ⟨hlatest, hvalue.symm⟩

theorem le_latest (h : x.value? k = some a) : k ≤ x.latest := by
  have hlt := (List.getElem?_eq_some_iff.1 h).1
  rw [List.length_cons] at hlt
  exact Nat.le_of_lt_succ hlt

theorem Follows.value? (h : x.Follows f) (hk : k ≤ x.latest) : x.value? k = some (f k) := by
  unfold Atomic.value?
  rw [h, List.getElem?_map, List.getElem?_range (Nat.lt_succ_of_le hk), Option.map_some]

theorem Follows.current (h : x.Follows f) : x.current = f x.latest := by
  have hlast : (x.initial :: x.stores).getLast? = some (f x.latest) := by
    rw [h, List.range_succ, List.map_append, List.map_singleton, List.getLast?_concat]
  rw [List.getLast?_cons] at hlast
  unfold Atomic.current
  rw [List.getLastD_eq_getLast?]
  exact Option.some.inj hlast

theorem Follows.store (h : x.Follows f) (ha : a = f (x.latest + 1)) : (x.store a).Follows f := by
  unfold Follows at h ⊢
  rw [latest_store, List.range_succ, List.map_append, ← h, ha]
  rfl

theorem Loads.le_latest (h : x.Loads view k a) : k ≤ x.latest := Atomic.le_latest h.2

theorem Loads.eq (h : x.Loads view k a) (hf : x.Follows f) : a = f k := by
  have hvalue := hf.value? h.le_latest
  rw [h.2] at hvalue
  exact Option.some.inj hvalue

end Atomic
