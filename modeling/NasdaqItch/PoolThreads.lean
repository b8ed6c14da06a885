import NasdaqItch.Lib.Atomic
import NasdaqItch.Mempool

/-!
# The memory pool on two threads

`allocate` is called by the producer and `deallocate` by the consumer, at the same time and without
a lock. Here a call is the memory accesses it is made of, in the order of
`src/data_structures/mempool.h`: the load of the thread's own index, the acquire load of the other
thread's, the access to `isFreeBufferMap`, which is an ordinary array, and the release store. The
accesses of the two threads interleave in any way, and an acquire load may return an old value.

A block goes from the producer to the consumer through the queue, in any order; the consumer that
receives it has seen the store of its allocation. What the producer has seen of the returns may
lag behind.

* `pool_race_free`: no two accesses to a cell of `isFreeBufferMap` race, and no block is dropped.
* `pool_linearizes`: the two threads do what `MempoolSPSC` does with whole calls, each at its
  release store.
* `allocate_refused_iff`: when the null pointer is returned.
-/

namespace NasdaqItch

open Runs RingWindow

/-! ## The model -/

/-- Where the producer is in `allocate`, with the local variables. -/
inductive AllocateAt (N : Nat)
  | outside
  /-- Its own index is loaded; the load of `_deallocatorIndex` is next. -/
  | comparing (allocatorIndex nextAllocatorIndex : Fin N)
  | reading (allocatorIndex nextAllocatorIndex : Fin N)
  | storing (nextAllocatorIndex : Fin N) (resource : Block N)

/-- Where the consumer is in `deallocate`. -/
inductive DeallocateAt (N : Nat)
  | outside
  /-- Its own index is loaded; the load of `_allocatorIndex` is next. -/
  | comparing (item : Block N) (deallocatorIndex : Fin N)
  | writing (item : Block N) (deallocatorIndex : Fin N)
  | storing (item : Block N) (nextDeallocatorIndex : Fin N)

/-- The block that is being returned. -/
def DeallocateAt.inHand {N : Nat} : DeallocateAt N → List (Block N)
  | .outside => []
  | .comparing item _ => [item]
  | .writing item _ => [item]
  | .storing item _ => [item]

structure PoolThreads (N : Nat) where
  isFreeBufferMap : Fin N → Block N
  allocatorIndex : Atomic (Fin N)
  deallocatorIndex : Atomic (Fin N)
  producer : AllocateAt N := .outside
  consumer : DeallocateAt N := .outside
  /-- The producer's view of `deallocatorIndex`. -/
  producerView : Nat := 0
  /-- The consumer's view of `allocatorIndex`. -/
  consumerView : Nat := 0
  /-- The stamp of the last read of each cell. -/
  lastRead : Fin N → Option Nat := fun _ => none
  /-- The stamp of the last write of each cell; the constructor's writes come before both
  threads. -/
  lastWrite : Fin N → Option Nat := fun _ => none
  /-- The blocks that are allocated and not yet received, each with the position of the store of
  its allocation. -/
  inFlight : List (Block N × Nat) := []
  /-- The blocks that the consumer has received and not yet returned. -/
  held : List (Block N) := []

/-- What an access means to the callers. -/
inductive PoolEvent (N : Nat)
  | internal
  | allocated (resource : Block N)
  /-- The null pointer is returned. -/
  | refused
  | returned (item : Block N)
  /-- `deallocate` returns early. -/
  | dropped (item : Block N)

/-- The whole call that the access stands for. -/
def PoolEvent.call? {N : Nat} : PoolEvent N → Option (PoolCall N)
  | .allocated resource => some (.allocate (some resource))
  | .returned item => some (.deallocate item)
  | _ => none

namespace PoolThreads

variable {N : Nat}

def initial (hN : 0 < N) : PoolThreads N where
  isFreeBufferMap := id
  allocatorIndex := ⟨⟨0, hN⟩, []⟩
  deallocatorIndex := ⟨⟨0, hN⟩, []⟩

/-- The blocks that are allocated and not yet returned. -/
def outstanding (s : PoolThreads N) : List (Block N) :=
  s.inFlight.map Prod.fst ++ s.held ++ s.consumer.inHand

/-- One access of one thread, or a block that goes from the one to the other. -/
inductive Step : PoolThreads N → PoolEvent N → PoolThreads N → Prop
  | callAllocate {s} : s.producer = .outside →
      Step s .internal
        { s with producer := .comparing s.allocatorIndex.current (next s.allocatorIndex.current) }
  | refuse {s i j k} : s.producer = .comparing i j →
      s.deallocatorIndex.Loads s.producerView k j →
      Step s .refused { s with producer := .outside, producerView := k }
  | pass {s i j k d} : s.producer = .comparing i j →
      s.deallocatorIndex.Loads s.producerView k d → j ≠ d →
      Step s .internal { s with producer := .reading i j, producerView := k }
  | read {s i j} : s.producer = .reading i j →
      Step s .internal
        { s with
          producer := .storing j (s.isFreeBufferMap i)
          lastRead := Function.update s.lastRead i (some s.allocatorIndex.latest) }
  | storeAllocatorIndex {s j resource} : s.producer = .storing j resource →
      Step s (.allocated resource)
        { s with
          producer := .outside
          allocatorIndex := s.allocatorIndex.store j
          inFlight := (resource, s.allocatorIndex.latest + 1) :: s.inFlight }
  /-- The producer sees more of the returns, through the queue. -/
  | see {s k} : s.producer = .outside → s.producerView ≤ k → k ≤ s.deallocatorIndex.latest →
      Step s .internal { s with producerView := k }
  | receive {s block k} : s.consumer = .outside → (block, k) ∈ s.inFlight →
      Step s .internal
        { s with
          inFlight := s.inFlight.erase (block, k)
          held := block :: s.held
          consumerView := max s.consumerView k }
  | callDeallocate {s item} : s.consumer = .outside → item ∈ s.held →
      Step s .internal
        { s with
          consumer := .comparing item s.deallocatorIndex.current
          held := s.held.erase item }
  | drop {s item j k} : s.consumer = .comparing item j →
      s.allocatorIndex.Loads s.consumerView k j →
      Step s (.dropped item) { s with consumer := .outside, consumerView := k }
  | keep {s item j k a} : s.consumer = .comparing item j →
      s.allocatorIndex.Loads s.consumerView k a → j ≠ a →
      Step s .internal { s with consumer := .writing item j, consumerView := k }
  | write {s item j} : s.consumer = .writing item j →
      Step s .internal
        { s with
          consumer := .storing item (next j)
          isFreeBufferMap := Function.update s.isFreeBufferMap j item
          lastWrite := Function.update s.lastWrite j (some s.deallocatorIndex.latest) }
  | storeDeallocatorIndex {s item j} : s.consumer = .storing item j →
      Step s (.returned item)
        { s with
          consumer := .outside
          deallocatorIndex := s.deallocatorIndex.store j }

/-- The next access of a thread to a cell conflicts with one that is not in its past. -/
def Racy (s : PoolThreads N) : Prop :=
  (∃ i j w, s.producer = .reading i j ∧ s.lastWrite i = some w ∧ s.producerView ≤ w) ∨
    ∃ item i r, s.consumer = .writing item i ∧ s.lastRead i = some r ∧ s.consumerView ≤ r

end PoolThreads

/-! ## Where the two threads are -/

section Positions

variable {N : Nat} (hN : 0 < N)

/-- The local variables agree with the counter of the producer's stores; past its test, the next
allocation is less than a turn ahead of what the producer has seen returned. -/
def AllocateAt.AtPosition (stores view : Nat) (cells : Fin N → Block N) : AllocateAt N → Prop
  | .outside => True
  | .comparing i j => i = ring hN stores ∧ j = ring hN (stores + 1)
  | .reading i j => i = ring hN stores ∧ j = ring hN (stores + 1) ∧ stores + 2 ≤ view + N
  | .storing j resource =>
      j = ring hN (stores + 1) ∧ resource = cells (ring hN stores) ∧ stores + 2 ≤ view + N

def DeallocateAt.AtPosition (stores : Nat) (cells : Fin N → Block N) : DeallocateAt N → Prop
  | .outside => True
  | .comparing _ i => i = ring hN stores
  | .writing _ i => i = ring hN stores
  | .storing item j => j = ring hN (stores + 1) ∧ cells (ring hN stores) = item

end Positions

/-- What the array holds beside what is published: a return that is written and not yet stored. -/
def DeallocateAt.writes {N : Nat} (cells : Fin N → Block N) (i : Fin N) :
    DeallocateAt N → Fin N → Block N
  | .storing item _ => Function.update cells i item
  | _ => cells

namespace PoolThreads

variable {N : Nat} {hN : 0 < N} {s t : PoolThreads N} {event : PoolEvent N}

/-- The two counters, and what each thread has seen of the other's. -/
structure Ordered (hN : 0 < N) (s : PoolThreads N) : Prop where
  allocatorIndex : s.allocatorIndex.Follows (ring hN)
  deallocatorIndex : s.deallocatorIndex.Follows (ring hN)
  balance : s.allocatorIndex.latest = s.deallocatorIndex.latest + s.outstanding.length
  producerView : s.producerView ≤ s.deallocatorIndex.latest
  consumerView : s.consumerView ≤ s.allocatorIndex.latest
  room : s.allocatorIndex.latest + 1 ≤ s.producerView + N
  /-- An allocation that the consumer has not seen is still on its way. -/
  unseen : ∀ k, s.consumerView < k → k ≤ s.allocatorIndex.latest → ∃ block, (block, k) ∈ s.inFlight
  seenAt : ∀ block k, (block, k) ∈ s.inFlight → k ≤ s.allocatorIndex.latest
  producer : s.producer.AtPosition hN s.allocatorIndex.latest s.producerView s.isFreeBufferMap
  consumer : s.consumer.AtPosition hN s.deallocatorIndex.latest s.isFreeBufferMap

theorem ordered_initial (hN : 0 < N) : Ordered hN (initial hN) := by
  have hring : (⟨⟨0, hN⟩, []⟩ : Atomic (Fin N)).Follows (ring hN) := by
    show [_] = [ring hN 0]
    rw [ring]
    simp
  have hroom : 0 + 1 ≤ 0 + N := by omega
  exact ⟨hring, hring, rfl, le_rfl, le_rfl, hroom, fun k hk hle => absurd hk (Nat.not_lt.2 hle),
    fun block k hmem => absurd hmem List.not_mem_nil, trivial, trivial⟩

theorem Ordered.le_inFlight (h : s.Ordered hN) :
    s.allocatorIndex.latest ≤ s.consumerView + s.inFlight.length := by
  have hsubset : List.range' (s.consumerView + 1) (s.allocatorIndex.latest - s.consumerView) ⊆
      s.inFlight.map Prod.snd := by
    intro k hk
    obtain ⟨hlow, hhigh⟩ := List.mem_range'_1.1 hk
    obtain ⟨block, hblock⟩ := h.unseen k hlow (by omega)
    exact List.mem_map.2 ⟨_, hblock, rfl⟩
  have hlength := (List.subperm_of_subset List.nodup_range' hsubset).length_le
  rw [List.length_range', List.length_map] at hlength
  omega

theorem length_outstanding (s : PoolThreads N) : s.outstanding.length =
    s.inFlight.length + s.held.length + s.consumer.inHand.length := by
  rw [outstanding, List.length_append, List.length_append, List.length_map]

theorem Ordered.lt_consumerView (h : s.Ordered hN)
    (hhand : s.held.length + s.consumer.inHand.length ≠ 0) :
    s.deallocatorIndex.latest < s.consumerView := by
  have hbalance := h.balance
  have hflight := h.le_inFlight
  rw [length_outstanding] at hbalance
  omega

theorem Ordered.lt_turn (h : s.Ordered hN) :
    s.allocatorIndex.latest < s.deallocatorIndex.latest + N := by
  have hview := h.producerView
  have hroom := h.room
  omega

/-- While the consumer returns a block, its cell is not the one that is allocated next. -/
theorem Ordered.ring_ne (h : s.Ordered hN)
    (hhand : s.held.length + s.consumer.inHand.length ≠ 0) :
    ring hN s.deallocatorIndex.latest ≠ ring hN s.allocatorIndex.latest := by
  intro heq
  have hlt := h.lt_consumerView hhand
  have hview := h.consumerView
  have hcounter := ring_inj (by omega) h.lt_turn heq
  omega

theorem Ordered.balance_of_perm (h : s.Ordered hN) {blocks : List (Block N)}
    (hperm : blocks.Perm s.outstanding) :
    s.allocatorIndex.latest = s.deallocatorIndex.latest + blocks.length := by
  rw [hperm.length_eq]
  exact h.balance

theorem perm_receive {block : Block N} {k : Nat} (hmem : (block, k) ∈ s.inFlight) :
    ((s.inFlight.erase (block, k)).map Prod.fst ++ (block :: s.held) ++ s.consumer.inHand).Perm
      s.outstanding := by
  have hflight : (block :: (s.inFlight.erase (block, k)).map Prod.fst).Perm
      (s.inFlight.map Prod.fst) := ((List.perm_cons_erase hmem).map Prod.fst).symm
  exact (List.perm_middle.trans (hflight.append_right s.held)).append_right _

theorem perm_callDeallocate {item : Block N} (hs : s.consumer = .outside) (hmem : item ∈ s.held) :
    (s.inFlight.map Prod.fst ++ s.held.erase item ++ [item]).Perm s.outstanding := by
  have hheld : (s.held.erase item ++ [item]).Perm s.held :=
    List.perm_append_comm.trans (List.perm_cons_erase hmem).symm
  rw [outstanding, hs, List.append_assoc]
  exact (hheld.append_left _).trans (by rw [DeallocateAt.inHand, List.append_nil])

/-- **No block is dropped**: the early return of `deallocate` is never taken. -/
theorem Ordered.not_drop (h : s.Ordered hN) {item : Block N} {j : Fin N} {k : Nat}
    (hs : s.consumer = .comparing item j) : ¬ s.allocatorIndex.Loads s.consumerView k j := by
  intro hload
  have hposition := h.consumer
  rw [hs] at hposition
  have hlt := h.lt_consumerView (by rw [hs]; exact Nat.succ_ne_zero _)
  have hturn := h.lt_turn
  have hle := hload.le_latest
  have heq := hload.eq h.allocatorIndex
  rw [hposition] at heq
  have hcounter := ring_inj (hlt.le.trans hload.1) (by omega) heq
  have hview := hload.1
  omega

/-- **Every access keeps the order.** -/
theorem Ordered.step (h : s.Ordered hN) (hst : Step s event t) : t.Ordered hN := by
  have hproducer := h.producer
  have hconsumer := h.consumer
  cases hst with
  | callAllocate hs =>
      have hcurrent := h.allocatorIndex.current
      exact { h with producer := ⟨hcurrent, by rw [hcurrent, next_ring]⟩ }
  | refuse hs hload =>
      have hroom := h.room
      have hview := hload.1
      exact { h with
        producerView := hload.le_latest
        room := hroom.trans (Nat.add_le_add_right hview N)
        producer := trivial }
  | @pass i j k d hs hload hne =>
      rw [hs] at hproducer
      obtain ⟨hi, hj⟩ := hproducer
      have hroom : s.allocatorIndex.latest + 1 ≤ k + N :=
        h.room.trans (Nat.add_le_add_right hload.1 N)
      have hk := hload.le_latest
      -- The next index is not that of the last return the producer has seen.
      have hfree : s.allocatorIndex.latest + 1 ≠ k + N := by
        intro hfull
        apply hne
        rw [hj, hload.eq h.deallocatorIndex, hfull, ring, ring, Fin.mk.injEq]
        exact Nat.add_mod_right k N
      have hpast : s.allocatorIndex.latest + 2 ≤ k + N := by omega
      exact { h with
        producerView := hk
        room := hroom
        producer := ⟨hi, hj, hpast⟩ }
  | read hs =>
      rw [hs] at hproducer
      obtain ⟨hi, hj, hroom⟩ := hproducer
      exact { h with producer := ⟨hj, by rw [hi], hroom⟩ }
  | @storeAllocatorIndex j resource hs =>
      rw [hs] at hproducer
      obtain ⟨hj, -, hroom⟩ := hproducer
      have hlatest : (s.allocatorIndex.store j).latest = s.allocatorIndex.latest + 1 :=
        Atomic.latest_store
      refine { h with
        allocatorIndex := h.allocatorIndex.store hj
        balance := ?_
        consumerView := by rw [hlatest]; exact Nat.le_succ_of_le h.consumerView
        room := by rw [hlatest]; exact hroom
        unseen := fun k hk hle => ?_
        seenAt := fun block k hmem => ?_
        producer := trivial }
      · rw [hlatest, h.balance]
        exact Nat.add_assoc ..
      · rw [hlatest] at hle
        by_cases hnew : k = s.allocatorIndex.latest + 1
        · exact ⟨resource, hnew ▸ List.mem_cons_self⟩
        · obtain ⟨block, hblock⟩ := h.unseen k hk (by omega)
          exact ⟨block, List.mem_cons_of_mem _ hblock⟩
      · rw [hlatest]
        rcases List.mem_cons.1 hmem with heq | hmem
        · exact (Prod.mk.inj heq).2.le
        · exact Nat.le_succ_of_le (h.seenAt block k hmem)
  | see hs hle hlatest =>
      exact { h with
        producerView := hlatest
        room := h.room.trans (Nat.add_le_add_right hle N)
        producer := by rw [hs]; trivial }
  | @receive block k hs hmem =>
      refine { h with
        balance := h.balance_of_perm (perm_receive hmem)
        consumerView := max_le h.consumerView (h.seenAt block k hmem)
        unseen := fun k' hk' hle => ?_
        seenAt := fun block' k' hmem' => h.seenAt block' k' (List.mem_of_mem_erase hmem') }
      obtain ⟨hview, hne⟩ := max_lt_iff.1 hk'
      obtain ⟨block', hblock'⟩ := h.unseen k' hview hle
      refine ⟨block', (List.mem_erase_of_ne ?_).2 hblock'⟩
      exact fun heq => hne.ne' (Prod.mk.inj heq).2
  | callDeallocate hs hmem =>
      exact { h with
        balance := h.balance_of_perm (perm_callDeallocate hs hmem)
        consumer := h.deallocatorIndex.current }
  | drop hs hload => exact absurd hload (h.not_drop hs)
  | keep hs hload _ =>
      rw [hs] at hconsumer
      have hbalance := h.balance
      rw [outstanding, hs] at hbalance
      exact { h with
        balance := hbalance
        consumerView := hload.le_latest
        unseen := fun k hk hle => h.unseen k (lt_of_le_of_lt hload.1 hk) hle
        consumer := hconsumer }
  | @write item j hs =>
      rw [hs] at hconsumer
      obtain rfl : j = _ := hconsumer
      have hbalance := h.balance
      have hne := h.ring_ne (by rw [hs]; exact Nat.succ_ne_zero _)
      rw [outstanding, hs] at hbalance
      refine { h with
        balance := hbalance
        producer := ?_
        consumer := ⟨next_ring, Function.update_self ..⟩ }
      cases hp : s.producer with
      | storing j resource =>
          rw [hp] at hproducer
          obtain ⟨hj, hresource, hroom⟩ := hproducer
          exact ⟨hj, hresource.trans (Function.update_of_ne hne.symm _ _).symm, hroom⟩
      | _ =>
          rw [hp] at hproducer
          exact hproducer
  | @storeDeallocatorIndex item j hs =>
      rw [hs] at hconsumer
      have hbalance := h.balance
      rw [length_outstanding, hs] at hbalance
      have hlatest : (s.deallocatorIndex.store j).latest = s.deallocatorIndex.latest + 1 :=
        Atomic.latest_store
      refine { h with
        deallocatorIndex := h.deallocatorIndex.store hconsumer.1
        balance := ?_
        producerView := by rw [hlatest]; exact Nat.le_succ_of_le h.producerView
        consumer := trivial }
      rw [hlatest, length_outstanding, hbalance]
      show s.deallocatorIndex.latest + (s.inFlight.length + s.held.length + 1) =
        s.deallocatorIndex.latest + 1 + (s.inFlight.length + s.held.length + 0)
      omega

/-! ## No access races -/

/-- The stamp of an access is a counter of its cell; a write at the latest position is that of a
block still in the consumer's hand. -/
structure Stamped (hN : 0 < N) (s : PoolThreads N) : Prop where
  read : ∀ i r, s.lastRead i = some r → ring hN r = i ∧ r ≤ s.allocatorIndex.latest
  write : ∀ i w, s.lastWrite i = some w → ring hN w = i ∧ w ≤ s.deallocatorIndex.latest ∧
    (w = s.deallocatorIndex.latest → s.consumer.inHand ≠ [])

theorem Stamped.step (h : s.Stamped hN) (hs : s.Ordered hN) (hst : Step s event t) :
    t.Stamped hN := by
  have hproducer := hs.producer
  have hconsumer := hs.consumer
  cases hst with
  | read hp =>
      rw [hp] at hproducer
      refine { h with read := fun i r hr => ?_ }
      dsimp only at hr
      rw [Function.update_apply] at hr
      split_ifs at hr with hi
      · obtain rfl := Option.some.inj hr
        exact ⟨by rw [hi, hproducer.1], le_rfl⟩
      · exact h.read i r hr
  | storeAllocatorIndex hp =>
      refine { h with read := fun i r hr => ?_ }
      obtain ⟨hring, hle⟩ := h.read i r hr
      exact ⟨hring, hle.trans (by rw [Atomic.latest_store]; exact Nat.le_succ _)⟩
  | receive hc _ =>
      refine { h with write := fun i w hw => ?_ }
      obtain ⟨hring, hle, hlatest⟩ := h.write i w hw
      exact ⟨hring, hle, fun heq => absurd (by rw [hc]; rfl) (hlatest heq)⟩
  | callDeallocate hc _ =>
      refine { h with write := fun i w hw => ?_ }
      obtain ⟨hring, hle, -⟩ := h.write i w hw
      exact ⟨hring, hle, fun _ => List.cons_ne_nil _ _⟩
  | drop hc hload => exact absurd hload (hs.not_drop hc)
  | keep hc _ _ =>
      refine { h with write := fun i w hw => ?_ }
      obtain ⟨hring, hle, -⟩ := h.write i w hw
      exact ⟨hring, hle, fun _ => List.cons_ne_nil _ _⟩
  | write hc =>
      rw [hc] at hconsumer
      refine { h with write := fun i w hw => ?_ }
      dsimp only at hw
      rw [Function.update_apply] at hw
      split_ifs at hw with hi
      · obtain rfl := Option.some.inj hw
        exact ⟨by rw [hi, hconsumer], le_rfl, fun _ => List.cons_ne_nil _ _⟩
      · obtain ⟨hring, hle, -⟩ := h.write i w hw
        exact ⟨hring, hle, fun _ => List.cons_ne_nil _ _⟩
  | storeDeallocatorIndex hc =>
      refine { h with write := fun i w hw => ?_ }
      obtain ⟨hring, hle, -⟩ := h.write i w hw
      rw [Atomic.latest_store]
      exact ⟨hring, Nat.le_succ_of_le hle, fun heq => by omega⟩
  | _ => exact ⟨h.read, h.write⟩

theorem Stamped.write_lt (h : s.Stamped hN) (hs : s.Ordered hN) {i : Fin N} {w : Nat}
    (hw : s.lastWrite i = some w) : w < s.allocatorIndex.latest := by
  obtain ⟨-, hle, hlatest⟩ := h.write i w hw
  have hbalance := hs.balance
  have hview := hs.consumerView
  by_cases heq : w = s.deallocatorIndex.latest
  · have hhand := List.length_pos_of_ne_nil (hlatest heq)
    have hlt := hs.lt_consumerView (by omega)
    omega
  · omega

/-- **An access is never raced**: what the other thread did to the cell is in its past. -/
theorem Stamped.not_racy (h : s.Stamped hN) (hs : s.Ordered hN) : ¬ s.Racy := by
  have hproducer := hs.producer
  have hconsumer := hs.consumer
  rintro (⟨i, j, w, hp, hw, hle⟩ | ⟨item, i, r, hc, hr, hle⟩)
  · -- The last write of the cell was a whole turn before this read.
    rw [hp] at hproducer
    obtain ⟨hi, -, hroom⟩ := hproducer
    have hturn := ring_behind (h.write_lt hs hw) ((h.write i w hw).1.trans hi)
    omega
  · -- The last read of the cell was at the position that is returned now, or before.
    rw [hc] at hconsumer
    have hlt := hs.lt_consumerView (by rw [hc]; exact Nat.succ_ne_zero _)
    have hturn := hs.lt_turn
    obtain ⟨hring, hread⟩ := h.read i r hr
    by_cases hahead : s.deallocatorIndex.latest < r
    · have hbehind := ring_behind hahead (hconsumer.symm.trans hring.symm)
      omega
    · omega

/-! ## Whole calls -/

/-- The pool of the whole calls: a call has happened when its index is stored. -/
structure Linearized (hN : 0 < N) (s : PoolThreads N) (h : PoolHistory N) : Prop where
  ordered : s.Ordered hN
  allocatorIndex : h.pool.allocatorIndex = ring hN s.allocatorIndex.latest
  deallocatorIndex : h.pool.deallocatorIndex = ring hN s.deallocatorIndex.latest
  cells : s.isFreeBufferMap =
    s.consumer.writes h.pool.isFreeBufferMap (ring hN s.deallocatorIndex.latest)
  outstanding : h.outstanding.Perm s.outstanding

theorem linearized_initial (hN : 0 < N) : Linearized hN (initial hN) (.initial hN) := by
  have hzero : (⟨0, hN⟩ : Fin N) = ring hN 0 := by
    rw [ring, Fin.mk.injEq, Nat.zero_mod]
  exact ⟨ordered_initial hN, hzero, hzero, rfl, .refl _⟩

variable {h h' : PoolHistory N}

theorem Linearized.internal (hlin : Linearized hN s h) (hst : Step s event t)
    (hcall : event.call? = none) : Linearized hN t h := by
  have hordered := hlin.ordered.step hst
  have hcells := hlin.cells
  have houtstanding := hlin.outstanding
  cases hst with
  | storeAllocatorIndex => exact absurd hcall (Option.some_ne_none _)
  | storeDeallocatorIndex => exact absurd hcall (Option.some_ne_none _)
  | receive _ hmem =>
      exact { hlin with
        ordered := hordered
        outstanding := houtstanding.trans (perm_receive hmem).symm }
  | callDeallocate hc hmem =>
      rw [hc] at hcells
      exact { hlin with
        ordered := hordered
        cells := hcells
        outstanding := houtstanding.trans (perm_callDeallocate hc hmem).symm }
  | drop hc hload => exact absurd hload (hlin.ordered.not_drop hc)
  | keep hc _ _ =>
      rw [hc] at hcells
      rw [PoolThreads.outstanding, hc] at houtstanding
      exact { hlin with ordered := hordered, cells := hcells, outstanding := houtstanding }
  | write hc =>
      have hposition := hlin.ordered.consumer
      rw [hc] at hcells hposition
      rw [PoolThreads.outstanding, hc] at houtstanding
      obtain rfl := hposition
      refine { hlin with ordered := hordered, cells := ?_, outstanding := houtstanding }
      exact congrArg (Function.update · _ _) hcells
  | _ => exact { hlin with ordered := hordered }

/-- **A release store is a whole call.** -/
theorem Linearized.call (hlin : Linearized hN s h) (hst : Step s event t) {call : PoolCall N}
    (hcall : event.call? = some call) : ∃ h', PoolHistory.Step h call h' ∧ Linearized hN t h' := by
  have hordered := hlin.ordered.step hst
  have hcells := hlin.cells
  have houtstanding := hlin.outstanding
  have hproducer := hlin.ordered.producer
  have hconsumer := hlin.ordered.consumer
  cases hst with
  | @storeAllocatorIndex j resource hp =>
      rw [hp] at hproducer
      obtain ⟨-, hresource, hroom⟩ := hproducer
      obtain rfl := Option.some.inj hcall
      have hview := hlin.ordered.producerView
      have hbalance := hlin.ordered.balance
      have hnext : next h.pool.allocatorIndex ≠ h.pool.deallocatorIndex := by
        rw [hlin.allocatorIndex, hlin.deallocatorIndex, next_ring]
        intro heq
        have hcounter := ring_inj (by omega) (by omega) heq.symm
        omega
      -- The cell is not the one that a return has already written.
      have hpublished : resource = h.pool.isFreeBufferMap h.pool.allocatorIndex := by
        rw [hresource, hcells, hlin.allocatorIndex]
        cases hc : s.consumer with
        | storing item j =>
            have hne := hlin.ordered.ring_ne (by rw [hc]; exact Nat.succ_ne_zero _)
            exact Function.update_of_ne hne.symm _ _
        | _ => rfl
      have hallocate := MempoolSPSC.allocate_of_next_ne hnext
      rw [← hpublished] at hallocate
      refine ⟨_, .allocate hallocate, { hlin with
        ordered := hordered
        allocatorIndex := ?_
        outstanding := houtstanding.cons resource }⟩
      show next h.pool.allocatorIndex = ring hN (s.allocatorIndex.store j).latest
      rw [hlin.allocatorIndex, next_ring, Atomic.latest_store]
  | @storeDeallocatorIndex item j hc =>
      obtain rfl := Option.some.inj hcall
      have hne := hlin.ordered.ring_ne (by rw [hc]; exact Nat.succ_ne_zero _)
      rw [hc] at hcells
      rw [PoolThreads.outstanding, hc] at houtstanding
      have hmem : item ∈ h.outstanding :=
        houtstanding.mem_iff.2 (List.mem_append_right _ List.mem_cons_self)
      have hkeep : h.pool.dropsReturned = false := by
        rw [MempoolSPSC.dropsReturned, hlin.allocatorIndex, hlin.deallocatorIndex]
        exact decide_eq_false hne
      have hpool : h.pool.deallocate item = { h.pool with
          isFreeBufferMap := Function.update h.pool.isFreeBufferMap h.pool.deallocatorIndex item
          deallocatorIndex := next h.pool.deallocatorIndex } := by
        rw [MempoolSPSC.deallocate, hkeep]
        rfl
      refine ⟨_, .deallocate hmem, hordered, ?_, ?_, ?_, ?_⟩
      · rw [hpool]
        exact hlin.allocatorIndex
      · rw [hpool]
        show next h.pool.deallocatorIndex = ring hN (s.deallocatorIndex.store j).latest
        rw [hlin.deallocatorIndex, next_ring, Atomic.latest_store]
      · rw [hpool]
        show s.isFreeBufferMap = Function.update h.pool.isFreeBufferMap h.pool.deallocatorIndex item
        rw [hcells, hlin.deallocatorIndex]
        rfl
      · have hreturned := (houtstanding.trans (List.perm_append_singleton item _)).erase item
        rw [List.erase_cons_head] at hreturned
        refine hreturned.trans ?_
        rw [PoolThreads.outstanding, DeallocateAt.inHand, List.append_nil]
  | _ => exact absurd hcall.symm (Option.some_ne_none _)

/-! ## Every interleaving -/

section Runs

variable {events : List (PoolEvent N)}

theorem invariants (hrun : Run Step (initial hN) events s) : s.Ordered hN ∧ s.Stamped hN := by
  refine hrun.invariant (I := fun s => s.Ordered hN ∧ s.Stamped hN) ?_
    ⟨ordered_initial hN, nofun, nofun⟩
  intro s event t _ ⟨hordered, hstamped⟩ hst
  exact ⟨hordered.step hst, hstamped.step hordered hst⟩

theorem Ordered.ne_dropped (h : s.Ordered hN) (hst : Step s event t) (item : Block N) :
    event ≠ .dropped item := by
  cases hst with
  | drop hs hload => exact absurd hload (h.not_drop hs)
  | _ => exact nofun

theorem exists_linearized (hrun : Run Step (initial hN) events s) :
    ∃ h, Run PoolHistory.Step (.initial hN) (events.filterMap PoolEvent.call?) h ∧
      Linearized hN s h ∧ h.pool.Owns h.outstanding := by
  obtain ⟨h, hcalls, hlin⟩ := hrun.simulate_filterMap (linearized_initial hN)
    (fun s event t h hcall hlin hst => hlin.internal hst hcall)
    (fun s event call t h hcall hlin hst => hlin.call hst hcall)
  refine ⟨h, hcalls, hlin, ?_⟩
  exact hcalls.invariant (I := fun h => h.pool.Owns h.outstanding)
    (fun _ _ _ _ hI hst => PoolHistory.owns_step hI hst) (MempoolSPSC.owns_initial hN)

end Runs

end PoolThreads

open PoolThreads

/-- **No lock is needed.** In every interleaving of the accesses of the two threads, whatever old
values the loads return: the next access to a cell of the array is ordered after all that conflict
with it, and no return is dropped. -/
theorem pool_race_free {N : Nat} {hN : 0 < N} {events : List (PoolEvent N)} {s : PoolThreads N}
    (hrun : Run Step (initial hN) events s) :
    ¬ s.Racy ∧ ∀ item, .dropped item ∉ events := by
  obtain ⟨hordered, hstamped⟩ := PoolThreads.invariants hrun
  refine ⟨hstamped.not_racy hordered, fun item => ?_⟩
  refine hrun.history (I := fun past _ => .dropped item ∉ past) (List.not_mem_nil) ?_
  intro past s event t hpast hnot hst hmem
  rcases List.mem_append.1 hmem with hmem | hmem
  · exact hnot hmem
  · have hne := (PoolThreads.invariants hpast).1.ne_dropped hst item
    exact hne (List.mem_singleton.1 hmem).symm

/-- **The two threads do whole calls.** Every interleaving of the accesses is a sequence of calls
of the pool, each at its release store and with the block it returned or was given, and leaves the
state of that sequence. So no block is ever outstanding twice. -/
theorem pool_linearizes {N : Nat} {hN : 0 < N} {events : List (PoolEvent N)} {s : PoolThreads N}
    (hrun : Run Step (initial hN) events s) :
    (∃ h, Run PoolHistory.Step (.initial hN) (events.filterMap PoolEvent.call?) h ∧
      Linearized hN s h) ∧ s.outstanding.Nodup := by
  obtain ⟨h, hcalls, hlin, howns⟩ := exists_linearized hrun
  have hnodup : h.outstanding.Nodup := (List.nodup_append.1 howns.nodup).2.1
  exact ⟨⟨h, hcalls, hlin⟩, hlin.outstanding.nodup_iff.1 hnodup⟩

/-- **When the null pointer is returned**: when the outstanding blocks and the returns that the
producer has not seen are all blocks but one. -/
theorem allocate_refused_iff {N : Nat} {hN : 0 < N} {events : List (PoolEvent N)}
    {s : PoolThreads N} (hrun : Run Step (initial hN) events s) {i j d : Fin N} {k : Nat}
    (hs : s.producer = .comparing i j)
    (hload : s.deallocatorIndex.Loads s.producerView k d) :
    j = d ↔ s.outstanding.length + (s.deallocatorIndex.latest - k) + 1 = N := by
  have h := (PoolThreads.invariants hrun).1
  have hposition := h.producer
  rw [hs] at hposition
  have hbalance := h.balance
  have hroom := h.room
  have hview := hload.1
  have hle := hload.le_latest
  rw [hposition.2, hload.eq h.deallocatorIndex]
  constructor
  · intro heq
    by_contra hne
    have hcounter := ring_inj (by omega) (by omega) heq.symm
    omega
  · intro hfull
    have hturn : s.allocatorIndex.latest + 1 = k + N := by omega
    rw [hturn, ring, ring, Fin.mk.injEq]
    exact Nat.add_mod_right k N

/-- The first block is allocated, received and returned, and the return overlaps with the
allocation of the second, which has not seen it. -/
def overlapping (first second : Block 3) : List (PoolEvent 3) :=
  [.internal, .internal, .internal, .allocated first, .internal, .internal, .internal, .internal,
    .internal, .internal, .returned first, .internal, .allocated second, .internal]

theorem overlapping_run : ∃ s, Run Step (initial (by decide)) (overlapping 0 1) s ∧
    s.producer = .comparing 2 0 ∧ s.deallocatorIndex.Loads s.producerView 0 0 ∧
    s.outstanding.length = 1 ∧ s.deallocatorIndex.latest = 1 :=
  ⟨_, .cons (.callAllocate rfl) <| .cons (.pass rfl (k := 0) ⟨le_rfl, rfl⟩ (by decide)) <|
    .cons (.read rfl) <| .cons (.storeAllocatorIndex rfl) <|
    .cons (.receive rfl (show ((0 : Block 3), 1) ∈ _ by decide)) <|
    .cons (.callDeallocate rfl (show (0 : Block 3) ∈ _ by decide)) <| .cons (.callAllocate rfl) <|
    .cons (.keep rfl (k := 1) ⟨by decide, rfl⟩ (by decide)) <|
    .cons (.pass rfl (k := 0) ⟨le_rfl, rfl⟩ (by decide)) <| .cons (.write rfl) <|
    .cons (.storeDeallocatorIndex rfl) <| .cons (.read rfl) <|
    .cons (.storeAllocatorIndex rfl) <| .cons (.callAllocate rfl) <| .nil _,
    rfl, ⟨le_rfl, rfl⟩, rfl, rfl⟩

theorem pool_race_free_overlapping :
    ∃ s, Run Step (initial (by decide)) (overlapping 0 1) s ∧ ¬ s.Racy := by
  obtain ⟨s, hrun, -⟩ := overlapping_run
  exact ⟨s, hrun, (pool_race_free hrun).1⟩

theorem pool_linearizes_overlapping :
    ∃ h, Run PoolHistory.Step (.initial (by decide))
      [.allocate (some 0), .deallocate (0 : Block 3), .allocate (some 1)] h := by
  obtain ⟨s, hrun, -⟩ := overlapping_run
  obtain ⟨h, hcalls, -⟩ := (pool_linearizes hrun).1
  exact ⟨h, hcalls⟩

/-- With one block outstanding, the third call is refused: the producer still has to see the
return of the first. -/
theorem allocate_refused_overlapping :
    ∃ s t : PoolThreads 3, s.outstanding.length = 1 ∧ Step s .refused t := by
  obtain ⟨s, hrun, hs, hload, hlength, hlatest⟩ := overlapping_run
  have hrefused := (allocate_refused_iff hrun hs hload).2 (by rw [hlength, hlatest])
  exact ⟨s, _, hlength, .refuse hs (hrefused ▸ hload)⟩

end NasdaqItch
