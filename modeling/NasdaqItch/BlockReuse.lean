import NasdaqItch.PoolThreads

/-!
# A block comes back before it is used again

`PoolThreads` is about the memory of the pool itself. The blocks are memory as well: the producer
constructs a message in the block it was handed out, the consumer reads it until it calls
`operator delete`, and the producer may then be handed out the block again. No lock orders the
consumer's reads before the producer's next constructor; the pool's indices have to.

They do (`returned_before_reuse`): whatever old values the threads load, when a block is handed out
the producer has seen every return of it.
-/

namespace NasdaqItch

open Runs RingWindow

/-- The block that a `deallocate` has taken back. -/
def PoolEvent.returned? {N : Nat} : PoolEvent N → Option (Block N)
  | .returned item => some item
  | _ => none

namespace PoolThreads

variable {N : Nat} {hN : 0 < N} {s t : PoolThreads N} {event : PoolEvent N}
  {returns : List (Block N)} {h : PoolHistory N}

/-- These are the returns so far. Those that the producer has not seen are still in their cells. -/
structure Returned (hN : 0 < N) (returns : List (Block N)) (s : PoolThreads N) : Prop where
  length : returns.length = s.deallocatorIndex.latest
  cell : ∀ w block, returns[w]? = some block → s.producerView ≤ w →
    s.isFreeBufferMap (ring hN w) = block

theorem Returned.lt (h : s.Returned hN returns) {w : Nat} {block : Block N}
    (hw : returns[w]? = some block) : w < s.deallocatorIndex.latest := by
  rw [← h.length]
  exact (List.getElem?_eq_some_iff.1 hw).1

/-- What the producer has not seen is not a whole turn ago. -/
theorem Ordered.ring_ne_of_unseen (h : s.Ordered hN) {w : Nat} (hview : s.producerView ≤ w)
    (hlt : w < s.deallocatorIndex.latest) : ring hN w ≠ ring hN s.deallocatorIndex.latest := by
  intro heq
  have hroom := h.room
  have hbalance := h.balance
  have hcounter := ring_inj hlt.le (by omega) heq
  omega

theorem Returned.internal (h : s.Returned hN returns) (hs : s.Ordered hN) (hst : Step s event t)
    (hevent : event.returned? = none) : t.Returned hN returns := by
  have hconsumer := hs.consumer
  cases hst with
  | callAllocate | read | storeAllocatorIndex | receive | callDeallocate | drop | keep =>
      exact ⟨h.length, h.cell⟩
  | refuse _ hload | pass _ hload _ =>
      exact ⟨h.length, fun w block hw hview => h.cell w block hw (hload.1.trans hview)⟩
  | see _ hle _ =>
      exact ⟨h.length, fun w block hw hview => h.cell w block hw (hle.trans hview)⟩
  | @write item j hc =>
      rw [hc] at hconsumer
      obtain rfl : j = _ := hconsumer
      refine ⟨h.length, fun w block hw hview => ?_⟩
      have hne := hs.ring_ne_of_unseen hview (h.lt hw)
      exact (Function.update_of_ne hne _ _).trans (h.cell w block hw hview)
  | storeDeallocatorIndex => exact absurd hevent nofun

theorem Returned.returned (h : s.Returned hN returns) (hs : s.Ordered hN) {item : Block N}
    (hst : Step s (.returned item) t) : t.Returned hN (returns ++ [item]) := by
  have hconsumer := hs.consumer
  cases hst with
  | @storeDeallocatorIndex _ j hc =>
      rw [hc] at hconsumer
      refine ⟨?_, fun w block hw hview => ?_⟩
      · rw [Atomic.latest_store, ← h.length, List.length_append, List.length_singleton]
      · rcases Nat.lt_or_ge w returns.length with hold | hnew
        · rw [List.getElem?_append_left hold] at hw
          exact h.cell w block hw hview
        · rw [List.getElem?_append_right hnew] at hw
          obtain ⟨hlt, hitem⟩ := List.getElem?_eq_some_iff.1 hw
          rw [List.getElem_singleton] at hitem
          rw [List.length_singleton] at hlt
          have hw : w = s.deallocatorIndex.latest := by
            rw [← h.length]
            omega
          rw [hw, ← hitem]
          exact hconsumer.2

theorem returned_run {events : List (PoolEvent N)} (hrun : Run Step (initial hN) events s) :
    s.Returned hN (events.filterMap PoolEvent.returned?) := by
  refine hrun.history (I := fun past s => s.Returned hN (past.filterMap PoolEvent.returned?))
    ⟨rfl, nofun⟩ ?_
  intro past s event t hpast h hst
  have hs := (invariants hpast).1
  rw [List.filterMap_append]
  cases hevent : event.returned? with
  | none =>
      rw [List.filterMap_cons_none hevent, List.filterMap_nil, List.append_nil]
      exact h.internal hs hst hevent
  | some item =>
      rw [List.filterMap_cons_some hevent, List.filterMap_nil]
      cases event with
      | returned item' =>
          obtain rfl := Option.some.inj hevent
          exact h.returned hs hst
      | _ => exact absurd hevent nofun

/-! ## No block is in two cells -/

/-- In the cells that are not allocated, the array holds what is published. -/
theorem Linearized.cells_ring (hlin : Linearized hN s h) {k : Nat}
    (hlow : s.allocatorIndex.latest ≤ k) (hhigh : k < s.deallocatorIndex.latest + N) :
    s.isFreeBufferMap (ring hN k) = h.pool.isFreeBufferMap (ring hN k) := by
  rw [hlin.cells]
  cases hc : s.consumer with
  | storing item j =>
      refine Function.update_of_ne (fun heq => ?_) _ _
      have hlt := hlin.ordered.lt_consumerView (by rw [hc]; exact Nat.succ_ne_zero _)
      have hview := hlin.ordered.consumerView
      have hcounter := ring_inj (by omega) hhigh heq.symm
      omega
  | _ => rfl

theorem Linearized.counter_unique (hlin : Linearized hN s h) (howns : h.pool.Owns h.outstanding)
    {j k : Nat} (hj : s.allocatorIndex.latest ≤ j ∧ j < s.deallocatorIndex.latest + N)
    (hk : s.allocatorIndex.latest ≤ k ∧ k < s.deallocatorIndex.latest + N)
    (heq : s.isFreeBufferMap (ring hN j) = s.isFreeBufferMap (ring hN k)) : j = k := by
  have hnodup := (List.nodup_append.1 howns.nodup).1
  rw [MempoolSPSC.freeBlocks, hlin.allocatorIndex, hlin.deallocatorIndex,
    ← ring_add_self (n := s.deallocatorIndex.latest)] at hnodup
  rw [hlin.cells_ring hj.1 hj.2, hlin.cells_ring hk.1 hk.2] at heq
  have hbalance := hlin.ordered.balance
  exact RingWindow.counter_unique hlin.ordered.lt_turn (by omega) hnodup hj hk heq

end PoolThreads

open PoolThreads

/-- **Every return of a block is seen before the block is handed out again.** So what the consumer
did with a message comes before what the producer writes over it. -/
theorem returned_before_reuse {N : Nat} {hN : 0 < N} {events : List (PoolEvent N)}
    {s : PoolThreads N} (hrun : Run Step (initial hN) events s) {j : Fin N} {resource : Block N}
    (hs : s.producer = .storing j resource) {w : Nat}
    (hw : (events.filterMap PoolEvent.returned?)[w]? = some resource) : w < s.producerView := by
  obtain ⟨h, -, hlin, howns⟩ := exists_linearized hrun
  have hreturned := returned_run hrun
  have hposition := hlin.ordered.producer
  rw [hs] at hposition
  obtain ⟨-, hresource, hroom⟩ := hposition
  by_contra hseen
  -- Not yet seen, the block would be in the cell of its return as well.
  have hcell := hreturned.cell w resource hw (Nat.not_lt.1 hseen)
  have hlt := hreturned.lt hw
  have hturn := hlin.ordered.lt_turn
  rw [hresource, ← ring_add_self (n := w)] at hcell
  have hcounter := hlin.counter_unique howns ⟨by omega, by omega⟩ ⟨le_rfl, hturn⟩ hcell
  omega

/-- A pool of two blocks: they are handed out and returned in turn, and the first is handed out
again. -/
def inTurn (first second : Block 2) : List (PoolEvent 2) :=
  [.internal, .internal, .internal, .allocated first, .internal, .internal, .internal, .internal,
    .returned first, .internal, .internal, .internal, .allocated second, .internal, .internal,
    .internal, .internal, .returned second, .internal, .internal, .internal]

theorem returned_before_reuse_inTurn :
    ∃ s, Run Step (initial (by decide)) (inTurn 0 1) s ∧ s.producer = .storing 1 0 ∧
      0 < s.producerView := by
  have hrun : ∃ s, Run Step (initial (by decide)) (inTurn 0 1) s ∧
      s.producer = .storing 1 0 :=
    ⟨_, .cons (.callAllocate rfl) <| .cons (.pass rfl (k := 0) ⟨le_rfl, rfl⟩ (by decide)) <|
      .cons (.read rfl) <| .cons (.storeAllocatorIndex rfl) <|
      .cons (.receive rfl (show ((0 : Block 2), 1) ∈ _ by decide)) <|
      .cons (.callDeallocate rfl (show (0 : Block 2) ∈ _ by decide)) <|
      .cons (.keep rfl (k := 1) ⟨by decide, rfl⟩ (by decide)) <| .cons (.write rfl) <|
      .cons (.storeDeallocatorIndex rfl) <| .cons (.callAllocate rfl) <|
      .cons (.pass rfl (k := 1) ⟨by decide, rfl⟩ (by decide)) <| .cons (.read rfl) <|
      .cons (.storeAllocatorIndex rfl) <|
      .cons (.receive rfl (show ((1 : Block 2), 2) ∈ _ by decide)) <|
      .cons (.callDeallocate rfl (show (1 : Block 2) ∈ _ by decide)) <|
      .cons (.keep rfl (k := 2) ⟨by decide, rfl⟩ (by decide)) <| .cons (.write rfl) <|
      .cons (.storeDeallocatorIndex rfl) <| .cons (.callAllocate rfl) <|
      .cons (.pass rfl (k := 2) ⟨by decide, rfl⟩ (by decide)) <| .cons (.read rfl) <| .nil _,
      rfl⟩
  obtain ⟨s, hrun, hs⟩ := hrun
  exact ⟨s, hrun, hs, returned_before_reuse hrun hs rfl⟩

end NasdaqItch
