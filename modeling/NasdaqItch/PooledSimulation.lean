import NasdaqItch.Encoding
import NasdaqItch.PooledPipeline

/-!
# The pools do not show

`Pipeline` has no pools: `getMessage` returns a message, and `delete` takes it away.
`PooledPipeline` has them, and of a message no more than its type and its block. The two have the
same runs, state by state (`Mirrors`), since a pool of the size that the `static_assert` asks for
never fails:

* `pooled_of_pipeline`: every run of the pipeline can be had with the pools.
* `pipeline_of_pooled`: with the pools there are no other runs, unless a message fails.
* `pools_do_not_show`: so the pools make no difference.
-/

namespace NasdaqItch

open Runs

/-- What `getMessage` returns for a chunk with this type. -/
def MessageType.ParsesTo (t : MessageType) : Option Message → Prop
  | none => t ∉ parsedTypes
  | some m => m.body.messageType = t

theorem Body.messageType_mem (body : Body) : body.messageType ∈ parsedTypes := by
  cases body <;> simp [messageType, parsedTypes]

/-! ## States that mirror each other -/

/-- The producers are at the same place, with the same messages to come. -/
inductive Producer.Mirrors {N : Nat} : Producer → PooledProducer N → Prop
  | waiting {input types} : List.Forall₂ MessageType.ParsesTo types input →
      Mirrors (.waiting input) (.waiting types)
  | parsing {x t input types} : t.ParsesTo x → List.Forall₂ MessageType.ParsesTo types input →
      Mirrors (.parsing x input) (.parsing t types)
  | pushing {m message input types} : m.body.messageType = message.messageType →
      List.Forall₂ MessageType.ParsesTo types input →
      Mirrors (.pushing m input) (.pushing message types)
  | finished : Mirrors .finished .finished

/-- The consumers are at the same place, with the same message in hand. -/
inductive Consumer.Mirrors {N : Nat} : Consumer → PooledConsumer N → Prop
  | testing : Mirrors .testing .testing
  | sawEmpty : Mirrors .sawEmpty .sawEmpty
  | popping : Mirrors .popping .popping
  | processing {m message} : m.body.messageType = message.messageType →
      Mirrors (.processing m) (.processing message)
  | deleting {m message} : m.body.messageType = message.messageType →
      Mirrors (.deleting m) (.deleting message)
  | exited : Mirrors .exited .exited

/-- The pipeline without and with the pools. -/
structure Pipeline.Mirrors {N : Nat} (s : Pipeline) (s' : PooledPipeline spscQueueCapacity N) :
    Prop where
  queue : s.queue.items.map (·.body.messageType) = s'.queue.items.map (·.messageType)
  workFinished : s.workFinished = s'.workFinished
  producer : s.producer.Mirrors s'.producer
  consumer : s.consumer.Mirrors s'.consumer
  sound : s'.Sound

theorem Mempools.new_messageType {N : Nat} {pools pools' : Mempools N} {t : MessageType}
    {message : MessagePtr N} (h : pools.new t = (some message, pools')) :
    message.messageType = t := by
  unfold Mempools.new at h
  split_ifs at h
  · obtain ⟨block, -, rfl⟩ := Option.map_eq_some_iff.1 (congrArg Prod.fst h)
    rfl
  · obtain rfl := Option.some.inj (congrArg Prod.fst h)
    rfl

theorem Pipeline.Accounts.consume_ok {b : Build} {messages : List Message} {s : Pipeline}
    {m : Message} {w : World} (h : Accounts b messages s) (hs : s.consumer = .processing m)
    (hw : processAll b World.initial messages = .ok w) :
    ∃ world, consume b s.world m = .ok world := by
  have hmessages : s.processed ++ m :: (s.queue.items ++ s.producer.toPush) = messages := by
    rw [← h.toPush, ← h.pushed, hs]
    simp [Consumer.inHand]
  rw [← hmessages] at hw
  obtain ⟨v, hpast, hrest⟩ := run_append_iff.1 (processAll_eq_ok.1 hw)
  obtain rfl := hpast.deterministic (processAll_eq_ok.1 h.world)
  obtain ⟨world, hworld, -⟩ := run_cons_iff.1 hrest
  exact ⟨world, hworld⟩

namespace Pipeline.Mirrors

variable {b : Build} {N : Nat} {s t : Pipeline} {s' t' : PooledPipeline spscQueueCapacity N}
  {operation : Operation} {call : ThreadCall} {messages : List Message} {w : World}

theorem length_eq (h : s.Mirrors s') : s.queue.items.length = s'.queue.items.length :=
  Fifo.length_eq_of_map h.queue

theorem writeAvailable (h : s.Mirrors s') :
    s.queue.writeAvailable = s'.queue.writeAvailable := by
  rw [Fifo.writeAvailable, Fifo.writeAvailable, h.length_eq]

theorem readAvailable (h : s.Mirrors s') : s.queue.readAvailable = s'.queue.readAvailable :=
  h.length_eq

/-- **A step of the pipeline** is a step with the pools, and its call succeeds. -/
theorem pooled_step (hN : spscQueueCapacity + 1 < N) (h : s.Mirrors s')
    (hst : Pipeline.Step b s operation t) :
    ∃ t', PooledPipeline.Step s' { operation := operation } t' ∧ t.Mirrors t' := by
  have hsound : ∀ {t'}, PooledPipeline.Step s' { operation := operation } t' → t'.Sound :=
    fun hst' => (h.sound.step hN hst').2
  have hproducer := h.producer
  have hconsumer := h.consumer
  generalize hp : s'.producer = p at hproducer
  generalize hc : s'.consumer = c at hconsumer
  cases hst with
  | full hs hq =>
      rw [hs] at hproducer
      cases hproducer with
      | waiting hinput =>
          cases hinput with
          | cons _ _ => exact ⟨s', .full hp (h.writeAvailable ▸ hq), h⟩
  | room hs hq =>
      rw [hs] at hproducer
      cases hproducer with
      | waiting hinput =>
          cases hinput with
          | cons hparse hinput =>
              have hst' := PooledPipeline.Step.room hp (h.writeAvailable ▸ hq)
              exact ⟨_, hst', h.queue, h.workFinished, .parsing hparse hinput, h.consumer,
                hsound hst'⟩
  | null hs =>
      rw [hs] at hproducer
      cases hproducer with
      | parsing hparse hinput =>
          have hst' := PooledPipeline.Step.null hp hparse
          exact ⟨_, hst', h.queue, h.workFinished, .waiting hinput, h.consumer, hsound hst'⟩
  | message hs =>
      rw [hs] at hproducer
      cases hproducer with
      | @parsing _ type _ _ hparse hinput =>
          have hlength := h.sound.length_parsing hp
          have hmem : type ∈ parsedTypes := hparse ▸ Body.messageType_mem _
          rcases hnew : s'.pools.new type with ⟨result, pools⟩
          obtain ⟨message, rfl, -⟩ := h.sound.own.new (by omega) hnew
          have hst' := PooledPipeline.Step.new hp hmem hnew
          have htype := hparse.trans (Mempools.new_messageType hnew).symm
          exact ⟨_, hst', h.queue, h.workFinished, .pushing htype hinput, h.consumer, hsound hst'⟩
  | push hs hq =>
      rw [hs] at hproducer
      cases hproducer with
      | pushing htype hinput =>
          obtain ⟨queue, hpush, hitems⟩ := Fifo.push_map h.queue htype hq
          have hst' := PooledPipeline.Step.push hp hpush
          exact ⟨_, hst', hitems, h.workFinished, .waiting hinput, h.consumer, hsound hst'⟩
  | pushFailed _ hs hq =>
      rw [hs] at hproducer
      cases hproducer with
      | pushing =>
          have hroom := h.sound.room (by rw [hp]; trivial)
          exact absurd (h.length_eq ▸ hroom) (Fifo.push_eq_none.1 hq)
  | finish hs =>
      rw [hs] at hproducer
      cases hproducer with
      | waiting hinput =>
          cases hinput
          have hst' := PooledPipeline.Step.finish hp
          exact ⟨_, hst', h.queue, rfl, .finished, h.consumer, hsound hst'⟩
  | empty hs hq =>
      rw [hs] at hconsumer
      cases hconsumer
      have hst' := PooledPipeline.Step.empty hc (h.readAvailable ▸ hq)
      exact ⟨_, hst', h.queue, h.workFinished, h.producer, .sawEmpty, hsound hst'⟩
  | nonempty hs hq =>
      rw [hs] at hconsumer
      cases hconsumer
      have hst' := PooledPipeline.Step.nonempty hc (h.readAvailable ▸ hq)
      exact ⟨_, hst', h.queue, h.workFinished, h.producer, .popping, hsound hst'⟩
  | exit hs hf =>
      rw [hs] at hconsumer
      cases hconsumer
      have hst' := PooledPipeline.Step.exit hc (h.workFinished ▸ hf)
      exact ⟨_, hst', h.queue, h.workFinished, h.producer, .exited, hsound hst'⟩
  | retry hs hf =>
      rw [hs] at hconsumer
      cases hconsumer
      have hst' := PooledPipeline.Step.retry hc (h.workFinished ▸ hf)
      exact ⟨_, hst', h.queue, h.workFinished, h.producer, .testing, hsound hst'⟩
  | pop hs hq =>
      rw [hs] at hconsumer
      cases hconsumer
      obtain ⟨message, queue, hpop, htype, hitems⟩ := Fifo.pop_map h.queue hq
      have hst' := PooledPipeline.Step.pop hc hpop
      exact ⟨_, hst', hitems, h.workFinished, h.producer, .processing htype, hsound hst'⟩
  | popFailed _ hs hq =>
      rw [hs] at hconsumer
      cases hconsumer
      have hempty := congrArg List.length (Fifo.pop_eq_none.1 hq)
      rw [h.length_eq] at hempty
      exact absurd (List.length_eq_zero_iff.1 hempty) (h.sound.message hc)
  | processMessage hs hw =>
      rw [hs] at hconsumer
      cases hconsumer with
      | processing htype =>
          have hst' := PooledPipeline.Step.processMessage hc
          exact ⟨_, hst', h.queue, h.workFinished, h.producer, .deleting htype, hsound hst'⟩
  | delete hs =>
      rw [hs] at hconsumer
      cases hconsumer with
      | deleting htype =>
          have hdelete := (h.sound.step hN (PooledPipeline.Step.delete hc rfl)).1
          have hst' := PooledPipeline.Step.delete hc (Prod.ext hdelete rfl)
          exact ⟨_, hst', h.queue, h.workFinished, h.producer, .testing, hsound hst'⟩

/-- **A step with the pools** is a step of the pipeline, as long as no message fails. -/
theorem pipeline_step (hN : spscQueueCapacity + 1 < N) (h : s.Mirrors s')
    (haccounts : Accounts b messages s) (hw : processAll b World.initial messages = .ok w)
    (hst : PooledPipeline.Step s' call t') :
    ∃ t, Pipeline.Step b s call.operation t ∧ t.Mirrors t' := by
  obtain ⟨hsucceeded, hsound⟩ := h.sound.step hN hst
  have hproducer := h.producer
  have hconsumer := h.consumer
  generalize hp : s.producer = p at hproducer
  generalize hc : s.consumer = c at hconsumer
  cases hst with
  | full hs hq =>
      rw [hs] at hproducer
      cases hproducer with
      | waiting hinput =>
          cases hinput with
          | cons _ _ => exact ⟨s, .full hp (h.writeAvailable.trans hq), h⟩
  | room hs hq =>
      rw [hs] at hproducer
      cases hproducer with
      | waiting hinput =>
          cases hinput with
          | cons hparse hinput =>
              have hst := Pipeline.Step.room (b := b) hp (h.writeAvailable ▸ hq)
              exact ⟨_, hst, h.queue, h.workFinished, .parsing hparse hinput, h.consumer, hsound⟩
  | null hs hnot =>
      rw [hs] at hproducer
      cases hproducer with
      | @parsing x _ _ _ hparse hinput =>
          cases x with
          | none =>
              exact ⟨_, .null hp, h.queue, h.workFinished, .waiting hinput, h.consumer, hsound⟩
          | some m => exact absurd (hparse ▸ Body.messageType_mem m.body) hnot
  | new hs hmem hnew =>
      rw [hs] at hproducer
      cases hproducer with
      | @parsing x _ _ _ hparse hinput =>
          cases x with
          | none => exact absurd hmem hparse
          | some m =>
              have htype := hparse.trans (Mempools.new_messageType hnew).symm
              exact ⟨_, .message hp, h.queue, h.workFinished, .pushing htype hinput, h.consumer,
                hsound⟩
  | push hs hq =>
      rw [hs] at hproducer
      cases hproducer with
      | pushing htype hinput =>
          obtain ⟨queue, hpush, hitems⟩ := Fifo.push_map h.queue.symm htype.symm hq
          exact ⟨_, .push hp hpush, hitems.symm, h.workFinished, .waiting hinput, h.consumer,
            hsound⟩
  | finish hs =>
      rw [hs] at hproducer
      cases hproducer with
      | waiting hinput =>
          cases hinput
          exact ⟨_, .finish hp, h.queue, rfl, .finished, h.consumer, hsound⟩
  | empty hs hq =>
      rw [hs] at hconsumer
      cases hconsumer
      exact ⟨_, .empty hc (h.readAvailable.trans hq), h.queue, h.workFinished, h.producer,
        .sawEmpty, hsound⟩
  | nonempty hs hq =>
      rw [hs] at hconsumer
      cases hconsumer
      exact ⟨_, .nonempty hc (h.readAvailable ▸ hq), h.queue, h.workFinished, h.producer, .popping,
        hsound⟩
  | exit hs hf =>
      rw [hs] at hconsumer
      cases hconsumer
      exact ⟨_, .exit hc (h.workFinished.trans hf), h.queue, h.workFinished, h.producer, .exited,
        hsound⟩
  | retry hs hf =>
      rw [hs] at hconsumer
      cases hconsumer
      exact ⟨_, .retry hc (h.workFinished.trans hf), h.queue, h.workFinished, h.producer, .testing,
        hsound⟩
  | pop hs hq =>
      rw [hs] at hconsumer
      cases hconsumer
      obtain ⟨m, queue, hpop, htype, hitems⟩ := Fifo.pop_map h.queue.symm hq
      exact ⟨_, .pop hc hpop, hitems.symm, h.workFinished, h.producer, .processing htype.symm,
        hsound⟩
  | processMessage hs =>
      rw [hs] at hconsumer
      cases hconsumer with
      | processing htype =>
          obtain ⟨world, hworld⟩ := haccounts.consume_ok hc hw
          exact ⟨_, .processMessage hc hworld, h.queue, h.workFinished, h.producer,
            .deleting htype, hsound⟩
  | delete hs _ =>
      rw [hs] at hconsumer
      cases hconsumer with
      | deleting htype =>
          exact ⟨_, .delete hc, h.queue, h.workFinished, h.producer, .testing, hsound⟩
  -- The calls that fail.
  | badAlloc | pushFailed | popFailed => exact absurd hsucceeded Bool.false_ne_true

end Pipeline.Mirrors

/-! ## Runs -/

section

variable {b : Build} {N : Nat} {input : List (Option Message)} {types : List MessageType}

theorem mirrors_initial (hN : 0 < N) (htypes : List.Forall₂ MessageType.ParsesTo types input) :
    (Pipeline.initial input).Mirrors (PooledPipeline.initial hN types) :=
  ⟨rfl, rfl, .waiting htypes, .testing, PooledPipeline.sound_initial hN types⟩

/-- **The pools take no run away.** What the pipeline can do, it can do with the pools, and every
call succeeds. -/
theorem pooled_of_pipeline (hN : spscQueueCapacity + 1 < N)
    (htypes : List.Forall₂ MessageType.ParsesTo types input) {operations : List Operation}
    {t : Pipeline} (hrun : Run (Pipeline.Step b) (Pipeline.initial input) operations t) :
    ∃ t' : PooledPipeline spscQueueCapacity N,
      Run PooledPipeline.Step (PooledPipeline.initial (Nat.zero_lt_of_lt hN) types)
        (operations.map fun operation => { operation := operation }) t' ∧ t.Mirrors t' := by
  have hinitial := mirrors_initial (Nat.zero_lt_of_lt hN) htypes
  simp only [run_map_iff]
  refine hrun.simulate (R := Pipeline.Mirrors) hinitial ?_
  intro s operation t s' _ h hst
  exact h.pooled_step hN hst

/-- **The pools bring no run.** What the pipeline can do with the pools, it can do without, if the
messages do not fail in the sequential program. -/
theorem pipeline_of_pooled (hN : spscQueueCapacity + 1 < N)
    (htypes : List.Forall₂ MessageType.ParsesTo types input) {w : World}
    (hw : processAll b World.initial input.reduceOption = .ok w) {calls : List ThreadCall}
    {t' : PooledPipeline spscQueueCapacity N}
    (hrun : Run PooledPipeline.Step (PooledPipeline.initial (Nat.zero_lt_of_lt hN) types) calls
      t') :
    ∃ t, Run (Pipeline.Step b) (Pipeline.initial input) (calls.map (·.operation)) t ∧
      t.Mirrors t' := by
  have hinitial := mirrors_initial (Nat.zero_lt_of_lt hN) htypes
  have hsimulated : ∃ t, Run (fun s call t => Pipeline.Step b s call.operation t)
      (Pipeline.initial input) calls t ∧
        t.Mirrors t' ∧ t.Accounts b input.reduceOption ∧ t.Knows := by
    refine hrun.simulate
      (R := fun s' (s : Pipeline) =>
        s.Mirrors s' ∧ s.Accounts b input.reduceOption ∧ s.Knows)
      ⟨hinitial, Pipeline.accounts_initial input, Pipeline.knows_initial input⟩ ?_
    intro s' call t' s _ ⟨hmirrors, haccounts, hknows⟩ hst'
    obtain ⟨t, hst, ht⟩ := hmirrors.pipeline_step hN haccounts hw hst'
    exact ⟨t, hst, ht, haccounts.step hknows hst, hknows.step hst⟩
  obtain ⟨t, hrun', hmirrors, -⟩ := hsimulated
  exact ⟨t, run_map_iff.2 hrun', hmirrors⟩

/-- **The pools do not show.** With pools that are large enough, and if no message fails, the two
threads do the same with the pools as without: the same operations in the same order lead to
states that mirror each other, and with the pools no call fails. -/
theorem pools_do_not_show (hN : spscQueueCapacity + 1 < N)
    (htypes : List.Forall₂ MessageType.ParsesTo types input) {w : World}
    (hw : processAll b World.initial input.reduceOption = .ok w) :
    (∀ operations t, Run (Pipeline.Step b) (Pipeline.initial input) operations t →
      ∃ t' : PooledPipeline spscQueueCapacity N,
        Run PooledPipeline.Step (PooledPipeline.initial (Nat.zero_lt_of_lt hN) types)
          (operations.map fun operation => { operation := operation }) t' ∧ t.Mirrors t') ∧
    ∀ calls (t' : PooledPipeline spscQueueCapacity N),
      Run PooledPipeline.Step (PooledPipeline.initial (Nat.zero_lt_of_lt hN) types) calls t' →
      (∀ call ∈ calls, call.succeeded = true) ∧
        ∃ t, Run (Pipeline.Step b) (Pipeline.initial input) (calls.map (·.operation)) t ∧
          t.Mirrors t' :=
  ⟨fun _ _ hrun => pooled_of_pipeline hN htypes hrun,
    fun _ _ hrun => ⟨(sound_run hN hrun).1, pipeline_of_pooled hN htypes hw hrun⟩⟩

/-- One message through pools of 34 blocks. -/
theorem pools_do_not_show_smallest : ∃ t' : PooledPipeline spscQueueCapacity 34,
    Run PooledPipeline.Step (PooledPipeline.initial (by decide) [.stockTradingAction])
      (orderly.map fun operation => { operation := operation }) t' := by
  have htypes : List.Forall₂ MessageType.ParsesTo [.stockTradingAction] [some openingMessage] :=
    .cons rfl .nil
  have hw : processAll .release World.initial [openingMessage] =
      .ok (World.after .release [openingMessage]) := processAll_after _ (by decide)
  have hrun : ∃ t, Run (Pipeline.Step .release) (Pipeline.initial [some openingMessage]) orderly
      t :=
    ⟨_, .cons (.room rfl nofun) <| .cons (.message rfl) <| .cons (.push rfl rfl) <|
      .cons (.finish rfl) <| .cons (.nonempty rfl nofun) <| .cons (.pop rfl rfl) <|
      .cons (.processMessage rfl rfl) <| .cons (.delete rfl) <| .cons (.empty rfl rfl) <|
      .cons (.exit rfl rfl) <| .nil _⟩
  obtain ⟨t, hrun⟩ := hrun
  obtain ⟨t', hrun', -⟩ := (pools_do_not_show (N := 34) (by decide) htypes hw).1 orderly t hrun
  exact ⟨t', hrun'⟩

end

end NasdaqItch
