import NasdaqItch.Mempool
import NasdaqItch.Parse
import NasdaqItch.Pipeline

/-!
# The two threads and the pools

The threads of `Pipeline.lean`, with the pools that their messages come from and with any
capacity. Every class but `SystemEvent` has a pool of its own. What the messages say plays no
part here, so a message is its type and its block.

A call is one step and says whether it succeeded: `operator new` fails by throwing
`std::bad_alloc`, a push and a pop by returning `false`, and `operator delete` by the early return
that drops the block. `Sound` bounds what is outstanding: at most one message on the producer's
side, which implies room in the queue, at most one on the consumer's, and the queue.
-/

namespace NasdaqItch

open Runs

/-! ## The message classes -/

/-- The classes whose `operator new` takes a block from a pool. -/
def MessageType.isPooled (t : MessageType) : Bool := t ∈ parsedTypes && t ≠ .systemEvent

/-- A pointer to a message. -/
structure MessagePtr (N : Nat) where
  messageType : MessageType
  /-- `none` for a message on the heap. -/
  block : Option (Block N)
  deriving DecidableEq

abbrev Mempools (N : Nat) := MessageType → MempoolSPSC N

namespace Mempools

variable {N : Nat}

/-- `new`, or `none` where `operator new` throws `std::bad_alloc`. -/
def new (pools : Mempools N) (t : MessageType) : Option (MessagePtr N) × Mempools N :=
  if t.isPooled then
    let (ptr, pool) := (pools t).allocate
    (ptr.map fun block => ⟨t, some block⟩, Function.update pools t pool)
  else (some ⟨t, none⟩, pools)

/-- `delete`, and whether the memory was taken back. -/
def delete (pools : Mempools N) (message : MessagePtr N) : Bool × Mempools N :=
  match message.block with
  | some block =>
      let pool := pools message.messageType
      (!pool.dropsReturned, Function.update pools message.messageType (pool.deallocate block))
  | none => (true, pools)

/-- The blocks of these messages that belong to the pool of a type. -/
def blocksOf (t : MessageType) (messages : List (MessagePtr N)) : List (Block N) :=
  messages.filterMap fun message => if message.messageType = t then message.block else none

/-- Every pool owns its blocks, with these messages outstanding. -/
def Own (pools : Mempools N) (messages : List (MessagePtr N)) : Prop :=
  ∀ t, (pools t).Owns (blocksOf t messages)

variable {pools pools' : Mempools N} {messages messages' : List (MessagePtr N)}
  {message : MessagePtr N} {t : MessageType} {block : Block N} {result : Option (MessagePtr N)}

theorem blocksOf_block :
    blocksOf t (⟨t, some block⟩ :: messages) = block :: blocksOf t messages :=
  List.filterMap_cons_some (if_pos rfl)

theorem blocksOf_other {b : Option (Block N)} {t' : MessageType} (h : t' ≠ t) :
    blocksOf t (⟨t', b⟩ :: messages) = blocksOf t messages :=
  List.filterMap_cons_none (if_neg h)

theorem blocksOf_heap {t' : MessageType} :
    blocksOf t (⟨t', none⟩ :: messages) = blocksOf t messages :=
  List.filterMap_cons_none (ite_self none)

theorem own_initial (hN : 0 < N) : Own (fun _ => .initial hN) [] :=
  fun _ => MempoolSPSC.owns_initial hN

theorem Own.perm (h : Own pools messages) (hp : messages.Perm messages') : Own pools messages' :=
  fun t => (h t).perm (hp.filterMap _)

/-- **`new` succeeds** while fewer than `N - 1` messages are outstanding. -/
theorem Own.new (h : Own pools messages) (hlength : messages.length + 1 < N)
    (hst : pools.new t = (result, pools')) :
    ∃ message, result = some message ∧ Own pools' (message :: messages) := by
  have hblocks : (blocksOf t messages).length ≤ messages.length := List.length_filterMap_le _ _
  have hnonnull : (pools t).allocate.1 ≠ none := by
    intro hnull
    have hall := (h t).allocate_eq_none.1 hnull
    omega
  obtain ⟨block, hblock⟩ := Option.ne_none_iff_exists'.1 hnonnull
  have hallocate : (pools t).allocate = (some block, (pools t).allocate.2) := Prod.ext hblock rfl
  unfold Mempools.new at hst
  split_ifs at hst with hpooled
  · rw [hallocate] at hst
    obtain ⟨rfl, rfl⟩ := Prod.mk.inj hst
    refine ⟨_, rfl, fun t' => ?_⟩
    by_cases ht : t = t'
    · subst ht
      rw [Function.update_self, blocksOf_block]
      exact ((h t).allocate hallocate).2
    · rw [Function.update_of_ne (Ne.symm ht), blocksOf_other ht]
      exact h t'
  · obtain ⟨rfl, rfl⟩ := Prod.mk.inj hst
    refine ⟨_, rfl, fun t' => ?_⟩
    rw [blocksOf_heap]
    exact h t'

/-- **`delete` takes the memory back** of an outstanding message. -/
theorem Own.delete (h : Own pools messages) (hmem : message ∈ messages) :
    (pools.delete message).1 = true ∧ Own (pools.delete message).2 (messages.erase message) := by
  have hall : Own pools (message :: messages.erase message) := h.perm (List.perm_cons_erase hmem)
  obtain ⟨t, b⟩ := message
  cases b with
  | none =>
      refine ⟨rfl, fun t' => ?_⟩
      have howns := hall t'
      rw [blocksOf_heap] at howns
      exact howns
  | some block =>
      have howns := hall t
      rw [blocksOf_block] at howns
      have hkeep := howns.not_dropsReturned List.mem_cons_self
      refine ⟨?_, fun t' => ?_⟩
      · show (!(pools t).dropsReturned) = true
        rw [hkeep]
        rfl
      · show (Function.update pools t _ t').Owns _
        by_cases ht : t = t'
        · subst ht
          rw [Function.update_self]
          have hreturned := howns.deallocate List.mem_cons_self
          rw [List.erase_cons_head] at hreturned
          exact hreturned
        · have hother := hall t'
          rw [blocksOf_other ht] at hother
          rw [Function.update_of_ne (Ne.symm ht)]
          exact hother

end Mempools

/-! ## The threads -/

/-- Where the producer is, and the types of the messages that are still to come. -/
inductive PooledProducer (N : Nat)
  /-- At the test of `write_available`, or at the end of the file. -/
  | waiting (input : List MessageType)
  /-- There was room; `getMessage` is next. -/
  | parsing (t : MessageType) (input : List MessageType)
  | pushing (message : MessagePtr N) (input : List MessageType)
  /-- `workFinished` is set. -/
  | finished
  /-- By `std::bad_alloc`. -/
  | terminated

/-- Past the test of `write_available`. -/
def PooledProducer.hasRoom {N : Nat} : PooledProducer N → Prop
  | .parsing _ _ => True
  | .pushing _ _ => True
  | _ => False

/-- The message that is allocated and not yet pushed. -/
def PooledProducer.inHand {N : Nat} : PooledProducer N → List (MessagePtr N)
  | .pushing message _ => [message]
  | _ => []

inductive PooledConsumer (N : Nat)
  /-- At the test of `read_available`. -/
  | testing
  /-- The queue was empty; `isWorkFinished` is next. -/
  | sawEmpty
  /-- The queue was not empty; the pop is next. -/
  | popping
  | processing (message : MessagePtr N)
  | deleting (message : MessagePtr N)
  /-- Out of the loop. -/
  | exited

/-- The message that is popped and not yet deallocated. -/
def PooledConsumer.inHand {N : Nat} : PooledConsumer N → List (MessagePtr N)
  | .processing message => [message]
  | .deleting message => [message]
  | _ => []

theorem PooledProducer.length_inHand {N : Nat} (p : PooledProducer N) : p.inHand.length ≤ 1 := by
  cases p with
  | pushing => exact le_rfl
  | _ => exact Nat.zero_le 1

theorem PooledConsumer.length_inHand {N : Nat} (c : PooledConsumer N) : c.inHand.length ≤ 1 := by
  cases c with
  | processing => exact le_rfl
  | deleting => exact le_rfl
  | _ => exact Nat.zero_le 1

/-- A call and whether it succeeded. `getMessage` allocates and `delete` deallocates. -/
structure ThreadCall where
  operation : Operation
  succeeded : Bool := true

structure PooledPipeline (C N : Nat) where
  queue : Fifo (MessagePtr N) C := .empty
  pools : Mempools N
  workFinished : Bool := false
  producer : PooledProducer N
  consumer : PooledConsumer N := .testing
  /-- The messages allocated and not yet deallocated; no thread reads this. -/
  outstanding : List (MessagePtr N) := []

namespace PooledPipeline

variable {C N : Nat}

def initial (hN : 0 < N) (input : List MessageType) : PooledPipeline C N where
  pools := fun _ => .initial hN
  producer := .waiting input

/-- One call of one thread. -/
inductive Step : PooledPipeline C N → ThreadCall → PooledPipeline C N → Prop
  | full {s t input} : s.producer = .waiting (t :: input) → s.queue.writeAvailable = 0 →
      Step s { operation := .writeAvailable } s
  | room {s t input} : s.producer = .waiting (t :: input) → s.queue.writeAvailable ≠ 0 →
      Step s { operation := .writeAvailable } { s with producer := .parsing t input }
  | null {s t input} : s.producer = .parsing t input → t ∉ parsedTypes →
      Step s { operation := .getMessage } { s with producer := .waiting input }
  | new {s t input message pools} : s.producer = .parsing t input → t ∈ parsedTypes →
      s.pools.new t = (some message, pools) →
      Step s { operation := .getMessage }
        { s with
          pools := pools, producer := .pushing message input
          outstanding := message :: s.outstanding }
  | badAlloc {s t input pools} : s.producer = .parsing t input → t ∈ parsedTypes →
      s.pools.new t = (none, pools) →
      Step s { operation := .getMessage, succeeded := false } { s with producer := .terminated }
  | push {s message input queue} : s.producer = .pushing message input →
      s.queue.push message = some queue →
      Step s { operation := .push } { s with queue := queue, producer := .waiting input }
  | pushFailed {s message input} : s.producer = .pushing message input →
      s.queue.push message = none →
      Step s { operation := .push, succeeded := false } { s with producer := .waiting input }
  | finish {s} : s.producer = .waiting [] →
      Step s { operation := .setWorkFinished }
        { s with producer := .finished, workFinished := true }
  | empty {s} : s.consumer = .testing → s.queue.readAvailable = 0 →
      Step s { operation := .readAvailable } { s with consumer := .sawEmpty }
  | nonempty {s} : s.consumer = .testing → s.queue.readAvailable ≠ 0 →
      Step s { operation := .readAvailable } { s with consumer := .popping }
  | exit {s} : s.consumer = .sawEmpty → s.workFinished = true →
      Step s { operation := .isWorkFinished } { s with consumer := .exited }
  | retry {s} : s.consumer = .sawEmpty → s.workFinished = false →
      Step s { operation := .isWorkFinished } { s with consumer := .testing }
  | pop {s message queue} : s.consumer = .popping → s.queue.pop = some (message, queue) →
      Step s { operation := .pop } { s with queue := queue, consumer := .processing message }
  | popFailed {s} : s.consumer = .popping → s.queue.pop = none →
      Step s { operation := .pop, succeeded := false } { s with consumer := .testing }
  | processMessage {s message} : s.consumer = .processing message →
      Step s { operation := .processMessage } { s with consumer := .deleting message }
  | delete {s message succeeded pools} : s.consumer = .deleting message →
      s.pools.delete message = (succeeded, pools) →
      Step s { operation := .delete, succeeded := succeeded }
        { s with
          pools := pools, consumer := .testing
          outstanding := s.outstanding.erase message }

/-! ## What every interleaving keeps -/

structure Sound (s : PooledPipeline C N) : Prop where
  /-- What is outstanding is in the hands of a thread or in the queue. -/
  outstanding : s.outstanding.Perm (s.producer.inHand ++ s.queue.items ++ s.consumer.inHand)
  own : s.pools.Own s.outstanding
  /-- Only the producer pushes, so the room it saw is still there. -/
  room : s.producer.hasRoom → s.queue.items.length < C
  /-- Only the consumer pops, so the message it saw is still there. -/
  message : s.consumer = .popping → s.queue.items ≠ []

variable {s t : PooledPipeline C N} {call : ThreadCall}

theorem sound_initial (hN : 0 < N) (input : List MessageType) :
    Sound (initial hN input : PooledPipeline C N) :=
  ⟨.refl [], Mempools.own_initial hN, nofun, nofun⟩

theorem Sound.length_eq (h : Sound s) : s.outstanding.length =
    s.producer.inHand.length + s.queue.items.length + s.consumer.inHand.length := by
  rw [h.outstanding.length_eq, List.length_append, List.length_append]

theorem Sound.length_le (h : Sound s) : s.outstanding.length ≤ C + 1 := by
  have hconsumer := s.consumer.length_inHand
  have hqueue := s.queue.length_le
  have hroom := h.room
  rw [h.length_eq]
  cases hp : s.producer with
  | pushing message input =>
      rw [hp] at hroom
      have hlt : s.queue.items.length < C := hroom trivial
      show 1 + _ + _ ≤ _
      omega
  | _ =>
      show 0 + _ + _ ≤ _
      omega

theorem Sound.length_parsing {type : MessageType} {input : List MessageType} (h : Sound s)
    (hs : s.producer = .parsing type input) : s.outstanding.length ≤ C := by
  have hconsumer := s.consumer.length_inHand
  have hroom : s.queue.items.length < C := h.room (by rw [hs]; trivial)
  rw [h.length_eq, hs]
  show 0 + _ + _ ≤ _
  omega

/-- **Every call succeeds**, and keeps the invariant. -/
theorem Sound.step (hN : C + 1 < N) (h : Sound s) (hst : Step s call t) :
    call.succeeded = true ∧ Sound t := by
  have houtstanding := h.outstanding
  cases hst with
  | full => exact ⟨rfl, h⟩
  | room hs hq =>
      rw [hs] at houtstanding
      have hroom : s.queue.items.length < C :=
        not_not.1 fun hfull => hq (Fifo.writeAvailable_eq_zero.2 hfull)
      exact ⟨rfl, houtstanding, h.own, fun _ => hroom, h.message⟩
  | null hs _ =>
      rw [hs] at houtstanding
      exact ⟨rfl, houtstanding, h.own, nofun, h.message⟩
  | new hs _ hnew =>
      have hroom : s.queue.items.length < C := h.room (by rw [hs]; trivial)
      have hlength := h.length_parsing hs
      obtain ⟨message, hmessage, hown⟩ := h.own.new (by omega) hnew
      cases hmessage
      rw [hs] at houtstanding
      exact ⟨rfl, houtstanding.cons _, hown, fun _ => hroom, h.message⟩
  | badAlloc hs _ hnew =>
      have hlength := h.length_parsing hs
      obtain ⟨message, hmessage, _⟩ := h.own.new (by omega) hnew
      exact absurd hmessage nofun
  | @push message input queue hs hq =>
      rw [hs] at houtstanding
      refine ⟨rfl, houtstanding.trans ?_, h.own, nofun, fun _ => ?_⟩
      · show ([message] ++ s.queue.items ++ _).Perm (queue.items ++ _)
        rw [Fifo.push_items hq]
        exact List.perm_append_comm.append_right _
      · show queue.items ≠ []
        rw [Fifo.push_items hq]
        exact List.append_ne_nil_of_right_ne_nil _ (List.cons_ne_nil _ _)
  | pushFailed hs hq =>
      exact absurd (h.room (by rw [hs]; trivial)) (Fifo.push_eq_none.1 hq)
  | finish hs =>
      rw [hs] at houtstanding
      exact ⟨rfl, houtstanding, h.own, nofun, h.message⟩
  | nonempty hs hq =>
      rw [hs] at houtstanding
      exact ⟨rfl, houtstanding, h.own, h.room,
        fun _ hnil => hq (Fifo.readAvailable_eq_zero.2 hnil)⟩
  | @pop message queue hs hq =>
      rw [hs, Fifo.pop_items hq] at houtstanding
      refine ⟨rfl, houtstanding.trans ?_, h.own, fun hroom => ?_, nofun⟩
      · show (_ ++ ([message] ++ queue.items) ++ []).Perm (_ ++ queue.items ++ [message])
        rw [List.append_nil, List.append_assoc]
        exact List.perm_append_comm.append_left _
      · have hlt := h.room hroom
        rw [Fifo.pop_items hq, List.length_cons] at hlt
        exact Nat.lt_of_succ_lt hlt
  | popFailed hs hq => exact absurd (Fifo.pop_eq_none.1 hq) (h.message hs)
  | @delete message succeeded pools hs hdelete =>
      rw [hs] at houtstanding
      have hmem : message ∈ s.outstanding :=
        houtstanding.mem_iff.2 (List.mem_append_right _ List.mem_cons_self)
      have hdeleted := h.own.delete hmem
      rw [hdelete] at hdeleted
      obtain ⟨hsucceeded, hown⟩ := hdeleted
      refine ⟨hsucceeded, ?_, hown, h.room, nofun⟩
      have herased := (houtstanding.trans List.perm_append_comm).erase message
      show (s.outstanding.erase message).Perm (_ ++ [])
      rw [List.append_nil]
      exact herased.trans (.of_eq (List.erase_cons_head ..))
  | _ hs =>
      rw [hs] at houtstanding
      exact ⟨rfl, houtstanding, h.own, h.room, nofun⟩

end PooledPipeline

open PooledPipeline

/-- **Every interleaving**: no call fails, and the invariant holds. -/
theorem sound_run {C N : Nat} (hN : C + 1 < N) {input : List MessageType}
    {calls : List ThreadCall} {t : PooledPipeline C N}
    (hrun : Run Step (initial (Nat.zero_lt_of_lt hN) input) calls t) :
    (∀ call ∈ calls, call.succeeded = true) ∧ Sound t := by
  refine hrun.history (I := fun past s => (∀ call ∈ past, call.succeeded = true) ∧ Sound s) ?_ ?_
  · exact ⟨nofun, sound_initial _ input⟩
  · intro past s call t _ ⟨hpast, hs⟩ hst
    obtain ⟨hsucceeded, ht⟩ := hs.step hN hst
    refine ⟨fun call' hcall' => ?_, ht⟩
    rcases List.mem_append.1 hcall' with hold | hnew
    · exact hpast call' hold
    · obtain rfl := List.mem_singleton.1 hnew
      exact hsucceeded

/-- **The pools never run out.** For every capacity and every pool size that passes the
`static_assert`, every sequence of message types and every interleaving: every allocation, push,
pop and deallocation succeeds, and at most `C + 1` messages are outstanding. -/
theorem pools_never_run_out {C N : Nat} (hN : C + 1 < N) {input : List MessageType}
    {calls : List ThreadCall} {t : PooledPipeline C N}
    (hrun : Run Step (initial (Nat.zero_lt_of_lt hN) input) calls t) :
    (∀ call ∈ calls, call.succeeded = true) ∧ t.outstanding.length ≤ C + 1 := by
  obtain ⟨hsucceeded, hsound⟩ := sound_run hN hrun
  exact ⟨hsucceeded, hsound.length_le⟩

/-- A queue of one message: the second is allocated and pushed while the consumer still has the
first, so that two are outstanding, and the first goes back to its pool last. -/
def fullQueue : List ThreadCall :=
  [{ operation := .writeAvailable }, { operation := .getMessage }, { operation := .push },
    { operation := .readAvailable }, { operation := .pop }, { operation := .writeAvailable },
    { operation := .getMessage }, { operation := .push }, { operation := .writeAvailable },
    { operation := .processMessage }, { operation := .delete }]

theorem pools_never_run_out_fullQueue :
    ∃ t : PooledPipeline 1 3, t.producer = .waiting [.addOrderNoMpid] ∧
      (∀ call ∈ fullQueue, call.succeeded = true) ∧ t.outstanding.length ≤ 2 := by
  have hrun : ∃ t : PooledPipeline 1 3,
      Run Step (initial (by decide) [.addOrderNoMpid, .addOrderNoMpid, .addOrderNoMpid])
          fullQueue t ∧
        t.producer = .waiting [.addOrderNoMpid] :=
    ⟨_, .cons (.room rfl nofun) <| .cons (.new rfl (by decide) rfl) <| .cons (.push rfl rfl) <|
      .cons (.nonempty rfl nofun) <| .cons (.pop rfl rfl) <| .cons (.room rfl nofun) <|
      .cons (.new rfl (by decide) rfl) <| .cons (.push rfl rfl) <| .cons (.full rfl rfl) <|
      .cons (.processMessage rfl) <| .cons (.delete rfl rfl) <| .nil _, rfl⟩
  obtain ⟨t, hrun, hproducer⟩ := hrun
  exact ⟨t, hproducer, pools_never_run_out (by decide) hrun⟩

end NasdaqItch
