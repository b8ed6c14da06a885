import Mathlib.Data.List.ReduceOption
import NasdaqItch.PoolThreads

/-!
# The pool behind the queue

The comment in `src/data_structures/mempool.h` explains why a pool must have more blocks than the
queue's capacity plus one: the queue may be full of one message class, and the consumer may have
popped one more and not deleted it when the producer asks for the next. The argument is about what
there is. What `allocate` compares with, however, is what the producer has *seen*, which may be old.

Here the accesses of the two threads to the pool interleave as in `PoolThreads`, inside the
producer's loop (test for room, parse, push) and the consumer's (pop, process, delete). The read
index of the queue is an atomic as well: a producer that sees a pop has seen the returns before it,
and no more. `allocate_never_refused_iff`: the bound of the `static_assert` is still the right one.
-/

namespace NasdaqItch

open Runs RingWindow

/-! ## The model -/

/-- Where the producer is in its loop, for the pool of one message class. -/
inductive QueueProducer (N : Nat)
  /-- It tests `write_available()`. -/
  | waiting
  /-- There was room; `getMessage` is next. -/
  | parsing
  /-- In the `operator new` of the class. -/
  | allocating
  /-- With a message of the class, in its block, or one of another class. -/
  | pushing (message : Option (Block N))
  /-- `std::bad_alloc` was thrown. -/
  | failed

/-- Where the consumer is in its loop. -/
inductive QueueConsumer (N : Nat)
  | waiting
  | processing (message : Option (Block N))

structure PoolQueue (N : Nat) where
  pool : PoolThreads N
  /-- The messages pushed so far. -/
  pushed : List (Option (Block N)) := []
  /-- The read index of the queue, stored once for each pop. A store publishes the returns that
  came before; the value here is their number. -/
  pops : Atomic Nat := ⟨0, []⟩
  producer : QueueProducer N := .waiting
  consumer : QueueConsumer N := .waiting
  /-- The pops that the producer has seen. -/
  popsSeen : Nat := 0

namespace PoolQueue

variable {N : Nat}

def initial (hN : 0 < N) : PoolQueue N where
  pool := PoolThreads.initial hN

/-- One access of one thread. -/
inductive Step (capacity : Nat) : PoolQueue N → PoolEvent N → PoolQueue N → Prop
  | testWriteAvailable {s k r} : s.producer = .waiting → s.pops.Loads s.popsSeen k r →
      Step capacity s .internal
        { s with
          pool := { s.pool with producerView := max s.pool.producerView r }
          producer := if s.pushed.length < k + capacity then .parsing else .waiting
          popsSeen := k }
  /-- `getMessage` returned the null pointer. -/
  | parseNone {s} : s.producer = .parsing →
      Step capacity s .internal { s with producer := .waiting }
  | parseOther {s} : s.producer = .parsing →
      Step capacity s .internal { s with producer := .pushing none }
  | callNew {s pool} : s.producer = .parsing → s.pool.producer = .outside →
      pool = { s.pool with
        producer := .comparing s.pool.allocatorIndex.current
          (next s.pool.allocatorIndex.current) } →
      Step capacity s .internal { s with pool := pool, producer := .allocating }
  /-- An access inside `allocate` or `deallocate`, or the call of `deallocate`. -/
  | access {s pool} : PoolThreads.Step s.pool .internal pool →
      (pool.producer = .outside ↔ s.pool.producer = .outside) →
      pool.inFlight = s.pool.inFlight → Step capacity s .internal { s with pool := pool }
  | allocated {s block pool} : s.producer = .allocating →
      PoolThreads.Step s.pool (.allocated block) pool →
      Step capacity s (.allocated block) { s with pool := pool, producer := .pushing (some block) }
  | badAlloc {s pool} : s.producer = .allocating → PoolThreads.Step s.pool .refused pool →
      Step capacity s .refused { s with pool := pool, producer := .failed }
  | push {s message} : s.producer = .pushing message →
      Step capacity s .internal { s with pushed := s.pushed ++ [message], producer := .waiting }
  | popOther {s} : s.consumer = .waiting → s.pushed[s.pops.latest]? = some none →
      Step capacity s .internal
        { s with
          pops := s.pops.store s.pool.deallocatorIndex.latest
          consumer := .processing none }
  | pop {s block k} : s.consumer = .waiting → s.pushed[s.pops.latest]? = some (some block) →
      (block, k) ∈ s.pool.inFlight →
      Step capacity s .internal
        { s with
          pool := { s.pool with
            inFlight := s.pool.inFlight.erase (block, k)
            held := block :: s.pool.held
            consumerView := max s.pool.consumerView k }
          pops := s.pops.store s.pool.deallocatorIndex.latest
          consumer := .processing (some block) }
  | deleteOther {s} : s.consumer = .processing none →
      Step capacity s .internal { s with consumer := .waiting }
  | delete {s block pool} : s.consumer = .processing (some block) →
      PoolThreads.Step s.pool (.returned block) pool →
      Step capacity s (.returned block) { s with pool := pool, consumer := .waiting }
  | drop {s block pool} : s.consumer = .processing (some block) →
      PoolThreads.Step s.pool (.dropped block) pool →
      Step capacity s (.dropped block) { s with pool := pool, consumer := .waiting }

end PoolQueue

/-! ## Counting blocks -/

/-- The blocks among some messages. -/
def blocksIn {N : Nat} (messages : List (Option (Block N))) : Nat := messages.reduceOption.length

def QueueProducer.inHand {N : Nat} : QueueProducer N → Nat
  | .pushing (some _) => 1
  | _ => 0

def QueueConsumer.inHand {N : Nat} : QueueConsumer N → List (Block N)
  | .processing (some block) => [block]
  | _ => []

namespace PoolQueue

variable {N : Nat} {hN : 0 < N} {capacity : Nat} {s t : PoolQueue N} {event : PoolEvent N}
  {messages rest : List (Option (Block N))} {message : Option (Block N)} {n : Nat}

theorem blocksIn_append : blocksIn (messages ++ rest) = blocksIn messages + blocksIn rest := by
  rw [blocksIn, List.reduceOption_append, List.length_append]
  rfl

theorem blocksIn_le : blocksIn messages ≤ messages.length := List.reduceOption_length_le messages

theorem blocksIn_take_succ (h : messages[n]? = some message) :
    blocksIn (messages.take (n + 1)) = blocksIn (messages.take n) + blocksIn [message] := by
  rw [List.take_add_one, h, blocksIn_append]
  rfl

theorem blocksIn_le_take (messages : List (Option (Block N))) (n : Nat) :
    blocksIn messages ≤ blocksIn (messages.take n) + (messages.length - n) := by
  have hdrop : blocksIn (messages.drop n) ≤ messages.length - n :=
    blocksIn_le.trans (List.length_drop ..).le
  have hsplit : blocksIn messages =
      blocksIn (messages.take n) + blocksIn (messages.drop n) := by
    rw [← blocksIn_append, List.take_append_drop]
  omega

/-- What has been allocated, returned, and seen, against what has been pushed and popped. -/
structure Counted (hN : 0 < N) (capacity : Nat) (s : PoolQueue N) : Prop where
  ordered : s.pool.Ordered hN
  allocations : s.pool.allocatorIndex.latest = blocksIn s.pushed + s.producer.inHand
  returns : s.pool.deallocatorIndex.latest + s.consumer.inHand.length =
    blocksIn (s.pushed.take s.pops.latest)
  popped : s.pops.latest ≤ s.pushed.length
  /-- A pop comes after the return of every block popped before, or of all but the last. -/
  published : ∀ k r, s.pops.value? k = some r → r ≤ s.pool.deallocatorIndex.latest ∧
    blocksIn (s.pushed.take k) ≤ r + 1
  seen : s.popsSeen ≤ s.pops.latest
  view : blocksIn (s.pushed.take s.popsSeen) ≤ s.pool.producerView + 1
  /-- The test for room still holds. -/
  room : s.producer ≠ .waiting → s.pushed.length < s.popsSeen + capacity
  outside : s.producer ≠ .allocating → s.pool.producer = .outside
  received : (s.pool.held ++ s.pool.consumer.inHand).Perm s.consumer.inHand

theorem counted_initial (hN : 0 < N) (capacity : Nat) : Counted hN capacity (initial hN) where
  ordered := PoolThreads.ordered_initial hN
  allocations := rfl
  returns := rfl
  popped := le_rfl
  published := by
    intro k r h
    have hk : k = 0 := Nat.le_zero.1 (Atomic.le_latest h)
    subst hk
    obtain rfl : 0 = r := Option.some.inj h
    exact ⟨le_rfl, Nat.zero_le _⟩
  seen := le_rfl
  view := Nat.zero_le _
  room := fun h => absurd rfl h
  outside := fun _ => rfl
  received := .nil

/-! ## One access -/

/-- What an access that is no release store, and no block that changes hands, leaves alone. -/
theorem internal_frame {p q : PoolThreads N} (hst : PoolThreads.Step p .internal q)
    (hflight : q.inFlight = p.inFlight) :
    q.allocatorIndex = p.allocatorIndex ∧ q.deallocatorIndex = p.deallocatorIndex ∧
      p.producerView ≤ q.producerView ∧
      (q.held ++ q.consumer.inHand).Perm (p.held ++ p.consumer.inHand) := by
  cases hst with
  | callAllocate | read => exact ⟨rfl, rfl, le_rfl, .refl _⟩
  | pass _ hload _ => exact ⟨rfl, rfl, hload.1, .refl _⟩
  | see _ hle _ => exact ⟨rfl, rfl, hle, .refl _⟩
  | receive _ hmem =>
      have hlength := congrArg List.length hflight
      rw [List.length_erase_of_mem hmem] at hlength
      have hpos := List.length_pos_of_mem hmem
      omega
  | callDeallocate hs hmem =>
      refine ⟨rfl, rfl, le_rfl, ?_⟩
      rw [hs]
      exact (List.perm_append_comm.trans (List.perm_cons_erase hmem).symm).trans
        (by rw [DeallocateAt.inHand, List.append_nil])
  | keep hs _ _ | write hs =>
      refine ⟨rfl, rfl, le_rfl, ?_⟩
      rw [hs]
      exact .refl _

theorem Counted.received_nothing (h : s.Counted hN capacity) (hs : s.consumer = .waiting) :
    s.pool.held = [] ∧ s.pool.consumer = .outside := by
  have hreceived := h.received
  rw [hs] at hreceived
  obtain ⟨hheld, hhand⟩ := List.append_eq_nil_iff.1 hreceived.eq_nil
  refine ⟨hheld, ?_⟩
  cases hat : s.pool.consumer with
  | outside => rfl
  | comparing | writing | storing =>
      rw [hat] at hhand
      exact absurd hhand (List.cons_ne_nil _ _)

theorem Counted.published_pop (h : s.Counted hN capacity) (hidle : s.consumer = .waiting)
    (hmessage : s.pushed[s.pops.latest]? = some message) {k r : Nat}
    (hvalue : (s.pops.store s.pool.deallocatorIndex.latest).value? k = some r) :
    r ≤ s.pool.deallocatorIndex.latest ∧ blocksIn (s.pushed.take k) ≤ r + 1 := by
  rcases Atomic.value?_store hvalue with hold | ⟨rfl, rfl⟩
  · exact h.published k r hold
  · have hreturns := h.returns
    have hone : blocksIn [message] ≤ 1 := blocksIn_le
    rw [hidle] at hreturns
    rw [blocksIn_take_succ hmessage, ← hreturns]
    exact ⟨le_rfl, Nat.add_le_add_left hone _⟩

theorem Counted.step (h : s.Counted hN capacity) (hst : Step capacity s event t) :
    t.Counted hN capacity := by
  have hallocations := h.allocations
  have hreturns := h.returns
  cases hst with
  | @testWriteAvailable k r hs hload =>
      obtain ⟨hr, hblocks⟩ := h.published k r hload.2
      have hoff : s.pool.producer = .outside := h.outside (by rw [hs]; exact nofun)
      have hview := max_le h.ordered.producerView hr
      rw [hs] at hallocations
      refine { h with
        ordered := h.ordered.step (.see hoff (le_max_left ..) hview)
        allocations := ?_
        seen := Atomic.le_latest hload.2
        view := hblocks.trans (Nat.add_le_add_right (le_max_right ..) 1)
        room := fun hne => ?_
        outside := fun _ => hoff }
      · dsimp only
        split_ifs <;> exact hallocations
      · dsimp only at hne ⊢
        by_contra hfull
        exact hne (if_neg hfull)
  | parseNone hs | parseOther hs =>
      rw [hs] at hallocations
      exact { h with
        allocations := hallocations
        room := fun _ => h.room (by rw [hs]; exact nofun)
        outside := fun _ => h.outside (by rw [hs]; exact nofun) }
  | callNew hs hoff hpool =>
      subst hpool
      rw [hs] at hallocations
      exact { h with
        ordered := h.ordered.step (.callAllocate hoff)
        allocations := hallocations
        room := fun _ => h.room (by rw [hs]; exact nofun)
        outside := fun hne => absurd rfl hne }
  | access hpool hsame hflight =>
      obtain ⟨halloc, hdealloc, hview, hblocks⟩ := internal_frame hpool hflight
      refine { h with
        ordered := h.ordered.step hpool
        allocations := by rw [halloc]; exact hallocations
        returns := by rw [hdealloc]; exact hreturns
        published := fun k r hvalue => by rw [hdealloc]; exact h.published k r hvalue
        view := h.view.trans (Nat.add_le_add_right hview 1)
        outside := fun hne => hsame.2 (h.outside hne)
        received := hblocks.trans h.received }
  | allocated hs hpool =>
      have hordered := h.ordered.step hpool
      rw [hs] at hallocations
      cases hpool
      refine { h with
        ordered := hordered
        allocations := ?_
        room := fun _ => h.room (by rw [hs]; exact nofun)
        outside := fun _ => rfl }
      dsimp only
      rw [Atomic.latest_store, hallocations]
      rfl
  | badAlloc hs hpool =>
      have hordered := h.ordered.step hpool
      rw [hs] at hallocations
      cases hpool with
      | refuse _ hload =>
          exact { h with
            ordered := hordered
            allocations := hallocations
            view := h.view.trans (Nat.add_le_add_right hload.1 1)
            room := fun _ => h.room (by rw [hs]; exact nofun)
            outside := fun _ => rfl }
  | @push message hs =>
      have hpopped := h.popped
      rw [hs] at hallocations
      have htake : ∀ {n}, n ≤ s.pops.latest →
          (s.pushed ++ [message]).take n = s.pushed.take n := fun hn =>
        List.take_append_of_le_length (hn.trans hpopped)
      refine { h with
        allocations := ?_
        returns := by rw [htake le_rfl]; exact hreturns
        popped := hpopped.trans (by rw [List.length_append]; exact Nat.le_add_right ..)
        published := fun k r hvalue => by
          rw [htake (Atomic.le_latest hvalue)]
          exact h.published k r hvalue
        view := by rw [htake h.seen]; exact h.view
        room := fun hne => absurd rfl hne
        outside := fun _ => h.outside (by rw [hs]; exact nofun) }
      rw [hallocations, blocksIn_append]
      cases message <;> rfl
  | popOther hs hmessage =>
      have hlt := (List.getElem?_eq_some_iff.1 hmessage).1
      have hreceived := h.received
      rw [hs] at hreturns hreceived
      refine { h with
        returns := ?_
        popped := by rw [Atomic.latest_store]; exact hlt
        published := fun k r hvalue => h.published_pop hs hmessage hvalue
        seen := by rw [Atomic.latest_store]; exact Nat.le_succ_of_le h.seen
        received := hreceived }
      rw [Atomic.latest_store, blocksIn_take_succ hmessage, ← hreturns]
      rfl
  | @pop block k hs hmessage hmem =>
      have hlt := (List.getElem?_eq_some_iff.1 hmessage).1
      obtain ⟨hheld, houtside⟩ := h.received_nothing hs
      rw [hs] at hreturns
      refine { h with
        ordered := h.ordered.step (.receive houtside hmem)
        returns := ?_
        popped := by rw [Atomic.latest_store]; exact hlt
        published := fun k r hvalue => h.published_pop hs hmessage hvalue
        seen := by rw [Atomic.latest_store]; exact Nat.le_succ_of_le h.seen
        received := by rw [hheld, houtside]; exact .refl _ }
      rw [Atomic.latest_store, blocksIn_take_succ hmessage, ← hreturns]
      rfl
  | deleteOther hs =>
      have hreceived := h.received
      rw [hs] at hreturns hreceived
      exact { h with
        returns := hreturns
        received := hreceived }
  | @delete block _ hs hpool =>
      have hordered := h.ordered.step hpool
      have hreceived := h.received
      rw [hs] at hreturns hreceived
      cases hpool with
      | @storeDeallocatorIndex _ j hstoring =>
          rw [hstoring] at hreceived
          have hheld : s.pool.held = [] := by
            have hlength := hreceived.length_eq
            rw [List.length_append] at hlength
            exact List.length_eq_zero_iff.1 (Nat.succ.inj hlength)
          have hlatest : (s.pool.deallocatorIndex.store j).latest =
              s.pool.deallocatorIndex.latest + 1 := Atomic.latest_store
          exact { h with
            ordered := hordered
            returns := by rw [hlatest]; exact hreturns
            published := fun k r hvalue => by
              obtain ⟨hle, hblocks⟩ := h.published k r hvalue
              rw [hlatest]
              exact ⟨Nat.le_succ_of_le hle, hblocks⟩
            received := by rw [hheld]; exact .nil }
  | @drop block _ hs hpool => exact absurd rfl (h.ordered.ne_dropped hpool block)

/-! ## Enough blocks -/

/-- **No access refuses** when the pool has more blocks than the comment asks for. The allocations
the producer has made are at most a full queue more than the pops it has seen, and it has seen
the return of all of these but one. -/
theorem Counted.not_refused (h : s.Counted hN capacity) (hsize : capacity + 1 < N)
    (hst : Step capacity s event t) : event ≠ .refused := by
  cases hst with
  | badAlloc hs hpool =>
      exfalso
      cases hpool with
      | @refuse i j k hp hload =>
          have hposition := h.ordered.producer
          have hallocations := h.allocations
          have hroom := h.room (by rw [hs]; exact nofun)
          have hblocks := blocksIn_le_take s.pushed s.popsSeen
          have hview := h.view.trans (Nat.add_le_add_right hload.1 1)
          have hpopped := h.seen.trans h.popped
          have hlt : k < s.pool.allocatorIndex.latest + 1 := by
            have hbalance := h.ordered.balance
            have hk := hload.le_latest
            omega
          rw [hp] at hposition
          rw [hs] at hallocations
          have hturn : k + N ≤ s.pool.allocatorIndex.latest + 1 :=
            ring_behind hlt ((hload.eq h.ordered.deallocatorIndex).symm.trans hposition.2)
          have hcount : s.pool.allocatorIndex.latest = blocksIn s.pushed := hallocations
          omega
  | _ => exact nofun

theorem counted_run {events : List (PoolEvent N)}
    (hrun : Run (Step capacity) (initial hN) events s) : s.Counted hN capacity :=
  hrun.invariant (I := fun s => s.Counted hN capacity) (fun _ _ _ _ h hst => h.step hst)
    (counted_initial hN capacity)

/-! ## Too few blocks -/

/-- The first `n` messages are in the queue, all of the class, and none is popped. -/
structure Filled (hN : 0 < N) (n : Nat) (s : PoolQueue N) : Prop where
  producer : s.producer = .waiting
  consumer : s.consumer = .waiting
  outside : s.pool.producer = .outside
  allocatorIndex : s.pool.allocatorIndex.current = ring hN n
  deallocatorIndex : s.pool.deallocatorIndex = ⟨ring hN 0, []⟩
  view : s.pool.producerView = 0
  pops : s.pops = ⟨0, []⟩
  seen : s.popsSeen = 0
  length : s.pushed.length = n
  inFlight : ∀ message ∈ s.pushed, ∃ block k, message = some block ∧ (block, k) ∈ s.pool.inFlight

theorem filled_initial (hN : 0 < N) : Filled hN 0 (initial hN) where
  producer := rfl
  consumer := rfl
  outside := rfl
  allocatorIndex := by
    rw [ring]
    simp [initial, PoolThreads.initial, Atomic.current]
  deallocatorIndex := by
    rw [ring]
    simp [initial, PoolThreads.initial]
  view := rfl
  pops := rfl
  seen := rfl
  length := rfl
  inFlight := nofun

theorem Filled.push (h : s.Filled hN n) (hroom : n < capacity) (hblock : n + 1 < N) :
    ∃ events t, Run (Step capacity) s events t ∧ t.Filled hN (n + 1) := by
  have hload : s.pops.Loads s.popsSeen 0 0 := by
    rw [h.pops, h.seen]
    exact ⟨le_rfl, rfl⟩
  have hfree : s.pushed.length < 0 + capacity := by
    rw [h.length, Nat.zero_add]
    exact hroom
  have hne : next s.pool.allocatorIndex.current ≠ ring hN 0 := by
    rw [h.allocatorIndex, next_ring]
    intro heq
    have hzero := ring_inj (Nat.zero_le _) (by omega) heq.symm
    omega
  have hdealloc : s.pool.deallocatorIndex.Loads (max s.pool.producerView 0) 0 (ring hN 0) := by
    rw [h.view, h.deallocatorIndex]
    exact ⟨le_rfl, rfl⟩
  have hcurrent : (s.pool.allocatorIndex.store (next s.pool.allocatorIndex.current)).current =
      ring hN (n + 1) := by
    rw [Atomic.current_store, h.allocatorIndex, next_ring]
  have hlength : ∀ message, (s.pushed ++ [message]).length = n + 1 := fun message => by
    rw [List.length_append, h.length, List.length_singleton]
  refine ⟨_, _, .cons (.testWriteAvailable h.producer hload) <|
    .cons (.callNew (if_pos hfree) h.outside rfl) <|
    .cons (.access (.pass rfl hdealloc hne) (by simp) rfl) <|
    .cons (.access (.read rfl) (by simp) rfl) <|
    .cons (.allocated rfl (.storeAllocatorIndex rfl)) <| .cons (.push rfl) <| .nil _, ?_⟩
  dsimp only
  refine ⟨rfl, h.consumer, rfl, hcurrent, h.deallocatorIndex, rfl, h.pops, rfl, hlength _, ?_⟩
  intro message hmem
  rcases List.mem_append.1 hmem with hold | hnew
  · obtain ⟨block, k, hmessage, hflight⟩ := h.inFlight message hold
    exact ⟨block, k, hmessage, List.mem_cons_of_mem _ hflight⟩
  · exact ⟨_, _, List.mem_singleton.1 hnew, List.mem_cons_self⟩

theorem exists_filled (hN : 0 < N) (hroom : n ≤ capacity) (hblocks : n < N) :
    ∃ events s, Run (Step capacity) (initial hN) events s ∧ Filled hN n s := by
  induction n with
  | zero => exact ⟨[], _, .nil _, filled_initial hN⟩
  | succ n ih =>
      obtain ⟨events, s, hrun, hfilled⟩ := ih (Nat.le_of_succ_le hroom) (Nat.lt_of_succ_lt hblocks)
      obtain ⟨more, t, hmore, hnext⟩ := hfilled.push hroom hblocks
      exact ⟨events ++ more, t, run_append_iff.2 ⟨s, hrun, hmore⟩, hnext⟩

/-- All blocks but one are allocated, and the producer has seen no return. -/
structure Exhausted (hN : 0 < N) (s : PoolQueue N) : Prop where
  producer : s.producer = .waiting
  outside : s.pool.producer = .outside
  next : next s.pool.allocatorIndex.current = ring hN 0
  deallocatorIndex : s.pool.deallocatorIndex = ⟨ring hN 0, []⟩
  view : s.pool.producerView = 0

/-- If there is room in the queue, the next call is refused. -/
theorem Exhausted.refused (h : s.Exhausted hN) {k : Nat} (hload : s.pops.Loads s.popsSeen k 0)
    (hroom : s.pushed.length < k + capacity) :
    ∃ t, Run (Step capacity) s [.internal, .internal, .refused] t := by
  have hold : s.pool.deallocatorIndex.Loads (max s.pool.producerView 0) 0
      (RingWindow.next s.pool.allocatorIndex.current) := by
    rw [h.view, h.deallocatorIndex, h.next]
    exact ⟨le_rfl, rfl⟩
  exact ⟨_, .cons (.testWriteAvailable h.producer hload) <|
    .cons (.callNew (if_pos hroom) h.outside rfl) <|
    .cons (.badAlloc rfl (.refuse rfl hold)) <| .nil _⟩

theorem Filled.exhausted (h : s.Filled hN n) (hn : n + 1 = N) : s.Exhausted hN where
  producer := h.producer
  outside := h.outside
  next := by
    rw [h.allocatorIndex, next_ring, hn, ring, ring, Fin.mk.injEq, Nat.mod_self, Nat.zero_mod]
  deallocatorIndex := h.deallocatorIndex
  view := h.view

theorem Filled.pop (h : s.Filled hN n) (capacity : Nat) (hn : 0 < n) :
    ∃ t, Step capacity s .internal t ∧ t.pops.Loads t.popsSeen 1 0 ∧ t.pushed.length = n ∧
      (s.Exhausted hN → t.Exhausted hN) := by
  have hpos : 0 < s.pushed.length := by rwa [h.length]
  obtain ⟨block, k, hmessage, hflight⟩ := h.inFlight s.pushed[0] (List.getElem_mem hpos)
  have hfirst : s.pushed[s.pops.latest]? = some (some block) := by
    rw [h.pops, ← hmessage]
    exact List.getElem?_eq_getElem hpos
  have hload : (s.pops.store s.pool.deallocatorIndex.latest).Loads s.popsSeen 1 0 := by
    rw [h.pops, h.seen, h.deallocatorIndex]
    exact ⟨Nat.zero_le 1, rfl⟩
  exact ⟨_, .pop h.consumer hfirst hflight, hload, h.length,
    fun he => ⟨he.producer, he.outside, he.next, he.deallocatorIndex, he.view⟩⟩

/-- **With one block fewer, some run fails.** The queue takes all blocks that are handed out; if it
is full of them, the consumer pops one and is slow to delete it. -/
theorem exists_run_refused (hcapacity : 0 < capacity) (hN : 0 < N) (hsize : N ≤ capacity + 1) :
    ∃ events s, Run (Step capacity) (initial hN) events s ∧ .refused ∈ events := by
  have hlast : N - 1 + 1 = N := Nat.sub_add_cancel hN
  have hfits : N - 1 ≤ capacity := Nat.sub_le_of_le_add hsize
  obtain ⟨events, s, hrun, h⟩ := exists_filled hN hfits (Nat.sub_lt hN Nat.one_pos)
  rcases Nat.lt_or_ge (N - 1) capacity with hfree | hfull
  · have hload : s.pops.Loads s.popsSeen 0 0 := by
      rw [h.pops, h.seen]
      exact ⟨le_rfl, rfl⟩
    have hroom : s.pushed.length < 0 + capacity := by rwa [h.length, Nat.zero_add]
    obtain ⟨t, hrefused⟩ := (h.exhausted hlast).refused hload hroom
    exact ⟨_, t, run_append_iff.2 ⟨s, hrun, hrefused⟩, by simp⟩
  · obtain ⟨v, hpop, hload, hlength, hkeep⟩ := h.pop capacity (Nat.lt_of_lt_of_le hcapacity hfull)
    have hroom : v.pushed.length < 1 + capacity := by
      rw [hlength, Nat.add_comm]
      exact Nat.lt_succ_of_le hfits
    obtain ⟨t, hrefused⟩ := (hkeep (h.exhausted hlast)).refused hload hroom
    exact ⟨_, t, run_append_iff.2 ⟨s, hrun, .cons hpop hrefused⟩, by simp⟩

end PoolQueue

open PoolQueue

/-- **The bound of the `static_assert` is exact.** `operator new` never throws, in any interleaving
of the two threads and whatever old values they load, if and only if the pool has more blocks than
the queue's capacity plus one. -/
theorem allocate_never_refused_iff {capacity N : Nat} (hcapacity : 0 < capacity) (hN : 0 < N) :
    (∀ events s, Run (Step capacity) (initial hN) events s → .refused ∉ events) ↔
      capacity + 1 < N := by
  constructor
  · intro hnever
    by_contra hsize
    obtain ⟨events, s, hrun, hmem⟩ := exists_run_refused hcapacity hN (Nat.not_lt.1 hsize)
    exact hnever events s hrun hmem
  · intro hsize events s hrun
    refine hrun.history (I := fun past _ => .refused ∉ past) List.not_mem_nil ?_
    intro past s event t hpast hnot hst hmem
    rcases List.mem_append.1 hmem with hmem | hmem
    · exact hnot hmem
    · have hne := (counted_run hpast).not_refused hsize hst
      exact hne (List.mem_singleton.1 hmem).symm

/-- The program's pools have two blocks more than its queue, and one less would not do. -/
theorem allocate_never_refused_two_more :
    (∀ events s, Run (Step 32) (initial (by decide : 0 < 34)) events s → .refused ∉ events) ∧
      ¬ ∀ events s, Run (Step 32) (initial (by decide : 0 < 33)) events s → .refused ∉ events :=
  ⟨(allocate_never_refused_iff (by decide) (by decide)).2 (by decide),
    fun h => absurd ((allocate_never_refused_iff (by decide) (by decide)).1 h) (by decide)⟩

end NasdaqItch
