import Mathlib.Data.Finmap
import Mathlib.Algebra.BigOperators.Group.Multiset.Basic

/-!
# Unordered maps

`std::unordered_map` as Mathlib's finite maps: equality is extensional, and a loop over the map
is a loop over *some* list of its entries (`IterationOrder`), so a result about a loop is proved
for every order.

`sumBy` adds a quantity over all entries, in any commutative monoid; with machine words the sum
is a sum modulo the word size.
-/

/-- `std::unordered_map<K, V>`. -/
abbrev UnorderedMap (K V : Type*) := Finmap fun _ : K => V

namespace UnorderedMap

variable {K V M : Type*}

/-! ## Lookups after an update -/

section Lookup

variable [DecidableEq K] (m : UnorderedMap K V) (k k' : K) (v : V)

theorem lookup_insert_if :
    (m.insert k v).lookup k' = if k' = k then some v else m.lookup k' := by
  split_ifs with h
  · rw [h, Finmap.lookup_insert]
  · rw [Finmap.lookup_insert_of_ne _ h]

theorem lookup_erase_if :
    (m.erase k).lookup k' = if k' = k then none else m.lookup k' := by
  split_ifs with h
  · rw [h, Finmap.lookup_erase]
  · rw [Finmap.lookup_erase_ne h]

/-- `emplace` and `operator[] =` guarded by `count`: the first entry of a key stays. -/
def emplace (m : UnorderedMap K V) (k : K) (v : V) : UnorderedMap K V :=
  if k ∈ m then m else m.insert k v

theorem emplace_of_notMem {m : UnorderedMap K V} {k : K} (h : k ∉ m) :
    emplace m k v = m.insert k v := if_neg h

theorem emplace_of_mem {m : UnorderedMap K V} {k : K} (h : k ∈ m) :
    emplace m k v = m := if_pos h

@[simp] theorem mem_emplace_self : k ∈ emplace m k v := by
  unfold emplace
  split_ifs with h
  · exact h
  · exact Finmap.mem_insert.2 (Or.inl rfl)

variable {m k k' v} in
theorem mem_emplace : k' ∈ emplace m k v ↔ k' = k ∨ k' ∈ m := by
  by_cases h : k ∈ m
  · rw [emplace_of_mem v h]
    refine ⟨Or.inr, fun h' => ?_⟩
    rcases h' with rfl | h'
    · exact h
    · exact h'
  · rw [emplace_of_notMem v h, Finmap.mem_insert]

theorem lookup_emplace_if :
    (emplace m k v).lookup k' =
      if k' = k then some ((m.lookup k).getD v) else m.lookup k' := by
  by_cases h : k ∈ m
  · obtain ⟨w, hw⟩ := Finmap.mem_iff.1 h
    rw [emplace_of_mem v h]
    split_ifs with hk
    · rw [hk, hw, Option.getD_some]
    · rfl
  · rw [emplace_of_notMem v h, lookup_insert_if, Finmap.lookup_eq_none.2 h, Option.getD_none]

variable {m k k' v} in
theorem lookup_emplace_cases {w : V} (h : (emplace m k v).lookup k' = some w) :
    (k = k' ∧ k ∉ m) ∧ v = w ∨ ¬ (k = k' ∧ k ∉ m) ∧ m.lookup k' = some w := by
  by_cases hnew : k = k' ∧ k ∉ m
  · refine Or.inl ⟨hnew, ?_⟩
    rw [emplace_of_notMem v hnew.2, hnew.1, Finmap.lookup_insert] at h
    exact Option.some.inj h
  · refine Or.inr ⟨hnew, ?_⟩
    by_cases hmem : k ∈ m
    · rw [emplace_of_mem v hmem] at h
      exact h
    · have hne : k' ≠ k := fun heq => hnew ⟨heq.symm, hmem⟩
      rw [emplace_of_notMem v hmem, Finmap.lookup_insert_of_ne _ hne] at h
      exact h

theorem lookup_eq_none_or (m : UnorderedMap K V) (k : K) :
    m.lookup k = none ∨ ∃ v, m.lookup k = some v := by
  cases m.lookup k with
  | none => exact Or.inl rfl
  | some v => exact Or.inr ⟨v, rfl⟩

end Lookup

/-! ## Renamed keys -/

section Renaming

variable {K' : Type*} [DecidableEq K] [DecidableEq K'] {f : K → K'} {m : UnorderedMap K V}
  {m' : UnorderedMap K' V} {k : K}

/-- Seen through the renaming, the second map is the first. -/
def Renames (f : K → K') (m : UnorderedMap K V) (m' : UnorderedMap K' V) : Prop :=
  ∀ k, m'.lookup (f k) = m.lookup k

theorem renames_empty (f : K → K') : Renames f (∅ : UnorderedMap K V) ∅ := fun _ => rfl

theorem Renames.mem_iff (h : Renames f m m') : f k ∈ m' ↔ k ∈ m := by
  rw [Finmap.mem_iff, Finmap.mem_iff, h k]

theorem Renames.insert (hf : Function.Injective f) (h : Renames f m m') (k : K) (v : V) :
    Renames f (m.insert k v) (m'.insert (f k) v) := by
  intro k'
  simp only [lookup_insert_if, hf.eq_iff, h k']

theorem Renames.erase (hf : Function.Injective f) (h : Renames f m m') (k : K) :
    Renames f (m.erase k) (m'.erase (f k)) := by
  intro k'
  simp only [lookup_erase_if, hf.eq_iff, h k']

theorem Renames.emplace (hf : Function.Injective f) (h : Renames f m m') (k : K) (v : V) :
    Renames f (UnorderedMap.emplace m k v) (UnorderedMap.emplace m' (f k) v) := by
  intro k'
  simp only [lookup_emplace_if, hf.eq_iff, h k', h k]

end Renaming

/-! ## Sums over the entries -/

section Sums

variable [AddCommMonoid M] (f : K → V → M)

/-- The sum of `f` over all entries. -/
def sumBy (f : K → V → M) (m : UnorderedMap K V) : M :=
  (m.entries.map fun e => f e.1 e.2).sum

variable [DecidableEq K]

theorem sumBy_insert_of_notMem {m : UnorderedMap K V} {k : K} (h : k ∉ m) (v : V) :
    sumBy f (m.insert k v) = f k v + sumBy f m := by
  rw [sumBy, Finmap.entries_insert_of_notMem h, Multiset.map_cons, Multiset.sum_cons, sumBy]

theorem insert_erase_of_lookup {m : UnorderedMap K V} {k : K} {v : V}
    (h : m.lookup k = some v) : (m.erase k).insert k v = m := by
  refine Finmap.ext_lookup fun k' => ?_
  rw [lookup_insert_if, lookup_erase_if]
  split_ifs with hk
  · rw [hk, h]
  · rfl

theorem sumBy_erase {m : UnorderedMap K V} {k : K} {v : V} (h : m.lookup k = some v) :
    sumBy f m = f k v + sumBy f (m.erase k) := by
  have hnot : k ∉ m.erase k := Finmap.notMem_erase_self
  rw [← sumBy_insert_of_notMem f hnot v, insert_erase_of_lookup h]

theorem erase_of_notMem {m : UnorderedMap K V} {k : K} (h : k ∉ m) : m.erase k = m := by
  refine Finmap.ext_lookup fun k' => ?_
  rw [lookup_erase_if]
  split_ifs with hk
  · rw [hk, Finmap.lookup_eq_none.2 h]
  · rfl

end Sums

/-! ## Iteration -/

/-- A list of the entries of a map, in the order a loop happens to visit them. -/
structure IterationOrder (m : UnorderedMap K V) where
  entries : List (Σ _ : K, V)
  perm : (entries : Multiset (Σ _ : K, V)) = m.entries

namespace IterationOrder

/-- Some order; which one a loop takes is not specified. -/
noncomputable def any (m : UnorderedMap K V) : IterationOrder m :=
  ⟨m.entries.toList, Multiset.coe_toList _⟩

variable [DecidableEq K] {m : UnorderedMap K V} (order : IterationOrder m)

theorem mem_iff {e : Σ _ : K, V} : e ∈ order.entries ↔ m.lookup e.1 = some e.2 := by
  rw [← Multiset.mem_coe, order.perm]
  exact Finmap.lookup_eq_some_iff.symm

end IterationOrder

end UnorderedMap
