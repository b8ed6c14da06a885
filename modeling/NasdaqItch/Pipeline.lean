import NasdaqItch.Lib.Fifo
import NasdaqItch.Reachable

/-!
# The two threads

`main` reads the file and pushes, a second thread pops and processes; they share the queue and
the flag `workFinished`. One step is one operation of one thread: a test, a push, a pop, a write
of the flag. A run is any interleaving.

The consumer leaves its loop on two tests, first that the queue is empty and then that the work
is finished. The producer can push its last messages and set the flag between the two, and these
messages are never popped (`pipeline_loses_message`). No push in between is exactly what makes
the two threads equal to the sequential program (`pipeline_sequential_iff`).

A pointer in the queue is the message it points to. A thread that throws, or whose `assert`
fails, takes no further step.
-/

namespace NasdaqItch

open Runs

/-- `SPSC_QUEUE_CAPACITY`. -/
abbrev spscQueueCapacity : Nat := 32

/-- The queue of messages. -/
abbrev LockfreeSPSC := Fifo Message spscQueueCapacity

/-! ## The model -/

/-- Where the producer is. What is still to come is what `getMessage` will return for each chunk
of the file, `none` for the null pointer. -/
inductive Producer
  /-- At the test of `write_available`, or at the end of the file. -/
  | waiting (input : List (Option Message))
  /-- There was room; `getMessage` is next. -/
  | parsing (parsed : Option Message) (input : List (Option Message))
  | pushing (m : Message) (input : List (Option Message))
  /-- `workFinished` is set. -/
  | finished

/-- Past the test of `write_available`. -/
def Producer.hasRoom : Producer → Prop
  | .parsing _ _ => True
  | .pushing _ _ => True
  | _ => False

/-- The messages it has still to push. -/
def Producer.toPush : Producer → List Message
  | .waiting input => input.reduceOption
  | .parsing parsed input => (parsed :: input).reduceOption
  | .pushing m input => m :: input.reduceOption
  | .finished => []

/-- Where the consumer is. -/
inductive Consumer
  /-- At the test of `read_available`. -/
  | testing
  /-- The queue was empty; `isWorkFinished` is next. -/
  | sawEmpty
  /-- The queue was not empty; the pop is next. -/
  | popping
  | processing (m : Message)
  | deleting (m : Message)
  /-- Out of the loop. -/
  | exited

/-- The message it has popped and not yet processed. -/
def Consumer.inHand : Consumer → List Message
  | .processing m => [m]
  | _ => []

/-- The operations, the producer's and then the consumer's. -/
inductive Operation
  | writeAvailable | getMessage | push | setWorkFinished
  | readAvailable | isWorkFinished | pop | processMessage | delete
  deriving DecidableEq, Repr

structure Pipeline where
  queue : LockfreeSPSC := .empty
  workFinished : Bool := false
  producer : Producer
  consumer : Consumer := .testing
  world : World := World.initial
  /-- The messages pushed so far, in order; no thread reads this. -/
  pushed : List Message := []
  /-- The messages processed so far, in order; no thread reads this. -/
  processed : List Message := []

namespace Pipeline

def initial (input : List (Option Message)) : Pipeline where
  producer := .waiting input

/-- One operation of one thread. -/
inductive Step (b : Build) : Pipeline → Operation → Pipeline → Prop
  | full {s x input} : s.producer = .waiting (x :: input) → s.queue.writeAvailable = 0 →
      Step b s .writeAvailable s
  | room {s x input} : s.producer = .waiting (x :: input) → s.queue.writeAvailable ≠ 0 →
      Step b s .writeAvailable { s with producer := .parsing x input }
  | null {s input} : s.producer = .parsing none input →
      Step b s .getMessage { s with producer := .waiting input }
  | message {s m input} : s.producer = .parsing (some m) input →
      Step b s .getMessage { s with producer := .pushing m input }
  | push {s m input queue} : s.producer = .pushing m input → s.queue.push m = some queue →
      Step b s .push
        { s with queue := queue, producer := .waiting input, pushed := s.pushed ++ [m] }
  /-- `assert(success)` is dropped and the message is lost. -/
  | pushFailed {s m input} : b.asserts = false → s.producer = .pushing m input →
      s.queue.push m = none → Step b s .push { s with producer := .waiting input }
  | finish {s} : s.producer = .waiting [] →
      Step b s .setWorkFinished { s with producer := .finished, workFinished := true }
  | empty {s} : s.consumer = .testing → s.queue.readAvailable = 0 →
      Step b s .readAvailable { s with consumer := .sawEmpty }
  | nonempty {s} : s.consumer = .testing → s.queue.readAvailable ≠ 0 →
      Step b s .readAvailable { s with consumer := .popping }
  | exit {s} : s.consumer = .sawEmpty → s.workFinished = true →
      Step b s .isWorkFinished { s with consumer := .exited }
  | retry {s} : s.consumer = .sawEmpty → s.workFinished = false →
      Step b s .isWorkFinished { s with consumer := .testing }
  | pop {s m queue} : s.consumer = .popping → s.queue.pop = some (m, queue) →
      Step b s .pop { s with queue := queue, consumer := .processing m }
  /-- `assert(success)` is dropped, and the null pointer is skipped. -/
  | popFailed {s} : b.asserts = false → s.consumer = .popping → s.queue.pop = none →
      Step b s .pop { s with consumer := .testing }
  | processMessage {s m world} : s.consumer = .processing m → consume b s.world m = .ok world →
      Step b s .processMessage
        { s with world := world, consumer := .deleting m, processed := s.processed ++ [m] }
  | delete {s m} : s.consumer = .deleting m → Step b s .delete { s with consumer := .testing }

/-- Whether something was pushed since the consumer last tested `read_available`. -/
def pushedSinceTest (operations : List Operation) : Bool :=
  operations.foldl
    (fun pushed operation => match operation with
      | .push => true
      | .readAvailable => false
      | _ => pushed)
    false

/-! ## What every interleaving keeps -/

/-- Nothing is lost or duplicated between the file and the world. -/
structure Accounts (b : Build) (messages : List Message) (s : Pipeline) : Prop where
  /-- What was pushed is processed, in hand or in the queue, in this order. -/
  pushed : s.processed ++ s.consumer.inHand ++ s.queue.items = s.pushed
  /-- The rest of the file is still to come. -/
  toPush : s.pushed ++ s.producer.toPush = messages
  world : processAll b World.initial s.processed = .ok s.world

/-- What each thread knows from the tests it has made. -/
structure Knows (s : Pipeline) : Prop where
  /-- Only the producer pushes, so the room it saw is still there. -/
  room : s.producer.hasRoom → s.queue.items.length < spscQueueCapacity
  /-- Only the consumer pops, so the message it saw is still there. -/
  message : s.consumer = .popping → s.queue.items ≠ []
  finished : s.workFinished = true → s.producer = .finished
  exited : s.consumer = .exited → s.workFinished = true

section Invariants

variable {b : Build} {messages : List Message} {input : List (Option Message)} {s t : Pipeline}
  {operation : Operation} {operations : List Operation}

theorem accounts_initial (input : List (Option Message)) :
    Accounts b input.reduceOption (initial input) := ⟨rfl, rfl, rfl⟩

theorem knows_initial (input : List (Option Message)) : Knows (initial input) :=
  ⟨nofun, nofun, nofun, nofun⟩

theorem Knows.step (h : Knows s) (hst : Step b s operation t) : Knows t := by
  -- A producer that is still at work has not set the flag.
  have hbusy : s.producer ≠ .finished → s.workFinished = true → False :=
    fun hne hfinished => hne (h.finished hfinished)
  cases hst with
  | full => exact h
  | room hs hq =>
      have hroom : s.queue.items.length < spscQueueCapacity :=
        not_not.1 fun hfull => hq (Fifo.writeAvailable_eq_zero.2 hfull)
      exact ⟨fun _ => hroom, h.message, fun hf => (hbusy (by rw [hs]; nofun) hf).elim, h.exited⟩
  | null hs =>
      exact ⟨nofun, h.message, fun hf => (hbusy (by rw [hs]; nofun) hf).elim, h.exited⟩
  | message hs =>
      have hroom : s.queue.items.length < spscQueueCapacity := h.room (by rw [hs]; trivial)
      exact ⟨fun _ => hroom, h.message, fun hf => (hbusy (by rw [hs]; nofun) hf).elim, h.exited⟩
  | push hs hq =>
      refine ⟨nofun, fun _ => ?_, fun hf => (hbusy (by rw [hs]; nofun) hf).elim, h.exited⟩
      rw [Fifo.push_items hq]
      exact List.append_ne_nil_of_right_ne_nil _ (List.cons_ne_nil _ _)
  | pushFailed _ hs _ =>
      exact ⟨nofun, h.message, fun hf => (hbusy (by rw [hs]; nofun) hf).elim, h.exited⟩
  | finish hs => exact ⟨nofun, h.message, fun _ => rfl, fun _ => rfl⟩
  | nonempty hs hq =>
      exact ⟨h.room, fun _ hnil => hq (Fifo.readAvailable_eq_zero.2 hnil), h.finished, nofun⟩
  | exit hs hf => exact ⟨h.room, nofun, h.finished, fun _ => hf⟩
  | pop hs hq =>
      refine ⟨fun hroom => ?_, nofun, h.finished, nofun⟩
      have hlt := h.room hroom
      rw [Fifo.pop_items hq, List.length_cons] at hlt
      exact Nat.lt_of_succ_lt hlt
  | _ => exact ⟨h.room, nofun, h.finished, nofun⟩

/-- **A step loses nothing**, given what the threads know. -/
theorem Accounts.step (h : Accounts b messages s) (hknows : Knows s)
    (hst : Step b s operation t) : Accounts b messages t := by
  have hpushed := h.pushed
  have htoPush := h.toPush
  cases hst with
  | full => exact h
  | room hs hq =>
      rw [hs] at htoPush
      exact ⟨hpushed, htoPush, h.world⟩
  | null hs =>
      rw [hs] at htoPush
      exact ⟨hpushed, htoPush, h.world⟩
  | message hs =>
      rw [hs] at htoPush
      exact ⟨hpushed, htoPush, h.world⟩
  | push hs hq =>
      rw [hs] at htoPush
      refine ⟨?_, ?_, h.world⟩
      · show s.processed ++ s.consumer.inHand ++ _ = _
        rw [Fifo.push_items hq, ← List.append_assoc, hpushed]
      · show (s.pushed ++ _) ++ _ = _
        rw [List.append_assoc]
        exact htoPush
  | pushFailed _ hs hq =>
      exact absurd (hknows.room (by rw [hs]; trivial)) (Fifo.push_eq_none.1 hq)
  | finish hs =>
      rw [hs] at htoPush
      exact ⟨hpushed, htoPush, h.world⟩
  | pop hs hq =>
      rw [hs, Fifo.pop_items hq] at hpushed
      refine ⟨?_, htoPush, h.world⟩
      show s.processed ++ [_] ++ _ = _
      rw [← hpushed, List.append_assoc, List.append_assoc]
      rfl
  | popFailed _ hs hq => exact absurd (Fifo.pop_eq_none.1 hq) (hknows.message hs)
  | processMessage hs hw =>
      rw [hs] at hpushed
      refine ⟨?_, htoPush, ?_⟩
      · show s.processed ++ [_] ++ [] ++ _ = _
        rw [List.append_nil]
        exact hpushed
      · have hrun := processAll_eq_ok.1 h.world
        exact processAll_eq_ok.2 (run_concat_iff.2 ⟨_, hrun, hw⟩)
  | _ hs =>
      rw [hs] at hpushed
      exact ⟨hpushed, htoPush, h.world⟩

/-- Between the test that found the queue empty and the exit, the queue holds what was pushed
since that test. -/
def SinceTest (operations : List Operation) (s : Pipeline) : Prop :=
  s.consumer = .sawEmpty ∨ s.consumer = .exited →
    (s.queue.items = [] ↔ pushedSinceTest operations = false)

theorem SinceTest.step (h : SinceTest operations s) (hknows : Knows s)
    (hst : Step b s operation t) : SinceTest (operations ++ [operation]) t := by
  have hinside : ∀ {P : Prop} {c : Consumer}, c ≠ .sawEmpty → c ≠ .exited →
      (c = .sawEmpty ∨ c = .exited → P) :=
    fun hc hc' hor => (hor.elim hc hc').elim
  unfold SinceTest pushedSinceTest at *
  rw [List.foldl_concat]
  cases hst with
  | push hs hq =>
      intro _
      rw [Fifo.push_items hq]
      exact ⟨fun hnil => absurd hnil (List.append_ne_nil_of_right_ne_nil _ nofun), nofun⟩
  | pushFailed _ hs hq =>
      exact absurd (hknows.room (by rw [hs]; trivial)) (Fifo.push_eq_none.1 hq)
  | empty hs hq => exact fun _ => ⟨fun _ => rfl, fun _ => Fifo.readAvailable_eq_zero.1 hq⟩
  | exit hs hf => exact fun _ => h (Or.inl hs)
  | nonempty => exact hinside nofun nofun
  | retry => exact hinside nofun nofun
  | pop => exact hinside nofun nofun
  | popFailed => exact hinside nofun nofun
  | processMessage => exact hinside nofun nofun
  | delete => exact hinside nofun nofun
  | _ => exact h

/-- **Every interleaving** keeps all three. -/
theorem invariants (hrun : Run (Step b) (initial input) operations t) :
    Accounts b input.reduceOption t ∧ Knows t ∧ SinceTest operations t := by
  refine hrun.history (I := fun past s => Accounts b input.reduceOption s ∧ Knows s ∧
    SinceTest past s) ?_ ?_
  · exact ⟨accounts_initial input, knows_initial input, fun hor => hor.elim nofun nofun⟩
  · intro past s operation t _ h hst
    obtain ⟨haccounts, hknows, hsince⟩ := h
    exact ⟨haccounts.step hknows hst, hknows.step hst, hsince.step hknows hst⟩

end Invariants

end Pipeline

/-! ## When the two threads are the sequential program -/

open Pipeline

/-- **The pipeline is sequential, unless a push slips in.** For every input and every
interleaving after which the consumer has left its loop: it has processed all messages, each
once and in order, and left the state of the sequential program, exactly if nothing was pushed
after its last test of `read_available`. -/
theorem pipeline_sequential_iff {b : Build} {input : List (Option Message)}
    {operations : List Operation} {t : Pipeline}
    (hrun : Run (Step b) (initial input) operations t) (hexit : t.consumer = .exited) :
    (t.processed = t.pushed ∧ t.pushed = input.reduceOption ∧
      processAll b World.initial input.reduceOption = .ok t.world) ↔
      pushedSinceTest operations = false := by
  obtain ⟨haccounts, hknows, hsince⟩ := invariants hrun
  have hfinished : t.producer = .finished := hknows.finished (hknows.exited hexit)
  have hall : t.pushed = input.reduceOption := by
    have htoPush := haccounts.toPush
    rw [hfinished] at htoPush
    exact (List.append_nil _).symm.trans htoPush
  have hpushed : t.processed ++ t.queue.items = t.pushed := by
    have hpushed := haccounts.pushed
    rw [hexit] at hpushed
    exact (congrArg (· ++ t.queue.items) (List.append_nil _)).symm.trans hpushed
  rw [← hsince (Or.inr hexit)]
  constructor
  · intro ⟨hprocessed, _, _⟩
    rw [hprocessed] at hpushed
    exact List.append_right_eq_self.1 hpushed
  · intro hnil
    rw [hnil, List.append_nil] at hpushed
    exact ⟨hpushed, hall, by rw [← hall, ← hpushed]; exact haccounts.world⟩

/-- The one message of the runs below. -/
def openingMessage : Message := startsTrading 1 (clock 9 0)

/-- The consumer starts when the producer is done. -/
def orderly : List Operation :=
  [.writeAvailable, .getMessage, .push, .setWorkFinished, .readAvailable, .pop, .processMessage,
    .delete, .readAvailable, .isWorkFinished]

theorem pipeline_sequential_orderly :
    ∃ t : Pipeline, t.consumer = .exited ∧ t.processed = t.pushed ∧
      t.pushed = [openingMessage] ∧
      processAll .release World.initial [openingMessage] = .ok t.world := by
  have hrun : ∃ t, Run (Step .release) (initial [some openingMessage]) orderly t ∧
      t.consumer = .exited :=
    ⟨_, .cons (.room rfl nofun) <| .cons (.message rfl) <| .cons (.push rfl rfl) <|
      .cons (.finish rfl) <| .cons (.nonempty rfl nofun) <| .cons (.pop rfl rfl) <|
      .cons (.processMessage rfl rfl) <| .cons (.delete rfl) <| .cons (.empty rfl rfl) <|
      .cons (.exit rfl rfl) <| .nil _, rfl⟩
  obtain ⟨t, hrun, hexit⟩ := hrun
  exact ⟨t, hexit, (pipeline_sequential_iff hrun hexit).2 rfl⟩

/-- The consumer finds the queue empty, then the producer pushes and finishes, then the consumer
finds the work finished. -/
def hasty : List Operation :=
  [.readAvailable, .writeAvailable, .getMessage, .push, .setWorkFinished, .isWorkFinished]

/-- **A lost message.** It is pushed and never processed, and the issue it opens is missing. -/
theorem pipeline_loses_message :
    ∃ t : Pipeline, Run (Step .release) (initial [some openingMessage]) hasty t ∧
      t.consumer = .exited ∧ t.pushed = [openingMessage] ∧ t.processed = [] ∧
      processAll .release World.initial [openingMessage] ≠ .ok t.world := by
  refine ⟨_, .cons (.empty rfl rfl) <| .cons (.room rfl nofun) <| .cons (.message rfl) <|
    .cons (.push rfl rfl) <| .cons (.finish rfl) <| .cons (.exit rfl rfl) <| .nil _,
    rfl, rfl, rfl, fun h => ?_⟩
  rw [processAll_after [openingMessage] (by decide)] at h
  have hissue :
      1 ∈ (World.after .release [openingMessage]).vwapManager.periodicVWAPStatsPerIssue := by
    decide
  rw [Except.ok.inj h] at hissue
  exact Finmap.notMem_empty hissue

end NasdaqItch
