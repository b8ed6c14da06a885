import Mathlib.Data.List.ReduceOption
import Mathlib.Data.Prod.Lex
import Mathlib.Order.WellFounded
import NasdaqItch.Lib.Fair
import NasdaqItch.PooledSimulation

/-!
# The two threads come to an end

Both threads wait in a loop: the producer for room in the queue, the consumer for a message. The
rank is the number of operations still to be done, waiting not counted; where it stays the same,
the thread that is not kept waiting brings it down. So under every fair scheduler the consumer
leaves its loop, whatever the interleaving (`pipeline_terminates`).
-/

namespace NasdaqItch

open Runs

inductive Thread
  | producer
  | consumer
  deriving DecidableEq, Repr

def Operation.thread : Operation → Thread
  | .writeAvailable | .getMessage | .push | .setWorkFinished => .producer
  | .readAvailable | .isWorkFinished | .pop | .processMessage | .delete => .consumer

/-- The operations that the producer has still to do. -/
def Producer.toDo : Producer → Nat
  | .waiting input => 3 * input.length + 1
  | .parsing _ input => 3 * input.length + 3
  | .pushing _ input => 3 * input.length + 2
  | .finished => 0

/-- The operations that the consumer has still to do, those on the messages to come not counted. -/
def Consumer.toDo : Consumer → Nat
  | .testing => 1
  | .sawEmpty => 1
  | .popping => 0
  | .processing _ => 3
  | .deleting _ => 2
  | .exited => 0

namespace Pipeline

/-- Waiting does not change it; everything else makes it smaller. -/
def toDo (s : Pipeline) : Nat :=
  s.producer.toDo + 4 * (s.producer.toPush.length + s.queue.items.length) + s.consumer.toDo

/-- The thread that is not kept waiting. -/
def helpful (s : Pipeline) : Thread :=
  match s.producer with
  | .waiting (_ :: _) => if s.queue.writeAvailable = 0 then .consumer else .producer
  | .finished => .consumer
  | _ => .producer

/-- How many tests the consumer may still make in vain. -/
def vainTests (s : Pipeline) : Nat :=
  match s.helpful, s.consumer with
  | .consumer, .testing => if s.queue.readAvailable = 0 then 1 else 0
  | .consumer, .sawEmpty => if s.workFinished then 0 else 1
  | _, _ => 0

def rank (s : Pipeline) : Nat ×ₗ Nat := toLex (s.toDo, s.vainTests)

/-- What the interleaving keeps, and that the last thing the producer does is to set the flag. -/
structure Fit (b : Build) (messages : List Message) (s : Pipeline) : Prop where
  accounts : Accounts b messages s
  knows : Knows s
  flag : s.producer = .finished → s.workFinished = true

variable {b : Build} {messages : List Message} {input : List (Option Message)} {s t : Pipeline}
  {operation : Operation} {w : World}

theorem fit_initial (input : List (Option Message)) : Fit b input.reduceOption (initial input) :=
  ⟨accounts_initial input, knows_initial input, nofun⟩

theorem Fit.step (h : Fit b messages s) (hst : Step b s operation t) : Fit b messages t := by
  refine ⟨h.accounts.step h.knows hst, h.knows.step hst, ?_⟩
  cases hst with
  | finish => exact fun _ => rfl
  | room | null | message | push | pushFailed => exact nofun
  | _ => exact h.flag

/-- **An operation brings the rank down, or its thread waits**: then nothing changes but where the
consumer is. -/
theorem Fit.toDo_lt_or (h : Fit b messages s) (hst : Step b s operation t) :
    t.toDo < s.toDo ∨
      (t = s ∧ operation.thread = .producer ∧ s.helpful = .consumer) ∨
      (t = { s with consumer := t.consumer } ∧ operation.thread = .consumer ∧
        ((s.consumer = .testing ∧ t.consumer = .sawEmpty ∧ s.queue.readAvailable = 0) ∨
          (s.consumer = .sawEmpty ∧ t.consumer = .testing ∧ s.workFinished = false))) := by
  cases hst with
  | full hs hq =>
      refine Or.inr (Or.inl ⟨rfl, rfl, ?_⟩)
      simp only [helpful, hs, hq, if_true]
  | empty hs hq => exact Or.inr (Or.inr ⟨rfl, rfl, Or.inl ⟨hs, rfl, hq⟩⟩)
  | retry hs hf => exact Or.inr (Or.inr ⟨rfl, rfl, Or.inr ⟨hs, rfl, hf⟩⟩)
  | room hs _ | finish hs =>
      left
      simp only [toDo, hs, Producer.toDo, Producer.toPush, List.length_cons, List.length_nil]
      omega
  | null hs | message hs =>
      left
      simp only [toDo, hs, Producer.toDo, Producer.toPush, List.reduceOption_cons_of_none,
        List.reduceOption_cons_of_some]
      omega
  | push hs hq =>
      left
      simp [toDo, hs, Producer.toDo, Producer.toPush, Fifo.push_items hq]
      omega
  | pushFailed _ hs hq =>
      exact absurd (h.knows.room (by rw [hs]; trivial)) (Fifo.push_eq_none.1 hq)
  | pop hs hq =>
      left
      simp [toDo, hs, Consumer.toDo, Fifo.pop_items hq]
      omega
  | popFailed _ hs hq => exact absurd (Fifo.pop_eq_none.1 hq) (h.knows.message hs)
  | nonempty hs _ | exit hs _ | processMessage hs _ | delete hs =>
      left
      simp [toDo, hs, Consumer.toDo]

theorem Fit.enabled (h : Fit b messages s) (hw : processAll b World.initial messages = .ok w)
    (hexit : s.consumer ≠ .exited) : Enabled (Step b) Operation.thread s.helpful s := by
  have hconsumer : Enabled (Step b) Operation.thread .consumer s := by
    cases hc : s.consumer with
    | testing =>
        by_cases hq : s.queue.readAvailable = 0
        · exact ⟨_, _, rfl, .empty hc hq⟩
        · exact ⟨_, _, rfl, .nonempty hc hq⟩
    | sawEmpty =>
        cases hf : s.workFinished with
        | true => exact ⟨_, _, rfl, .exit hc hf⟩
        | false => exact ⟨_, _, rfl, .retry hc hf⟩
    | popping =>
        have hnonempty : s.queue.pop ≠ none := fun hq =>
          h.knows.message hc (Fifo.pop_eq_none.1 hq)
        obtain ⟨⟨m, queue⟩, hq⟩ := Option.ne_none_iff_exists'.1 hnonempty
        exact ⟨_, _, rfl, .pop hc hq⟩
    | processing m =>
        obtain ⟨world, hworld⟩ := h.accounts.consume_ok hc hw
        exact ⟨_, _, rfl, .processMessage hc hworld⟩
    | deleting m => exact ⟨_, _, rfl, .delete hc⟩
    | exited => exact absurd hc hexit
  unfold helpful
  cases hp : s.producer with
  | waiting input =>
      cases input with
      | nil => exact ⟨_, _, rfl, .finish hp⟩
      | cons x input =>
          by_cases hq : s.queue.writeAvailable = 0
          · simpa only [hq, if_true] using hconsumer
          · simp only [hq, if_false]
            exact ⟨_, _, rfl, .room hp hq⟩
  | parsing parsed input =>
      cases parsed with
      | none => exact ⟨_, _, rfl, .null hp⟩
      | some m => exact ⟨_, _, rfl, .message hp⟩
  | pushing m input =>
      have hroom : s.queue.push m ≠ none := fun hq =>
        Fifo.push_eq_none.1 hq (h.knows.room (by rw [hp]; trivial))
      obtain ⟨queue, hq⟩ := Option.ne_none_iff_exists'.1 hroom
      exact ⟨_, _, rfl, .push hp hq⟩
  | finished => exact hconsumer

/-- While the consumer is the helpful one, there is a message for it, or the flag is set. -/
theorem Fit.of_helpful (h : Fit b messages s) (hs : s.helpful = .consumer) :
    s.queue.readAvailable ≠ 0 ∨ s.workFinished = true := by
  unfold helpful at hs
  cases hp : s.producer with
  | waiting input =>
      rw [hp] at hs
      cases input with
      | nil => exact absurd hs nofun
      | cons x input =>
          left
          by_cases hq : s.queue.writeAvailable = 0
          · have hfull := Fifo.writeAvailable_eq_zero.1 hq
            intro hempty
            rw [Fifo.readAvailable_eq_zero] at hempty
            rw [hempty] at hfull
            exact hfull (by decide)
          · simp only [hq, if_false] at hs
            exact absurd hs nofun
  | finished => exact Or.inr (h.flag hp)
  | parsing | pushing =>
      rw [hp] at hs
      exact absurd hs nofun

/-- **Every step keeps the rank down**, and a step of the helpful thread brings it down. -/
theorem Fit.rank_step (h : Fit b messages s) (hst : Step b s operation t) :
    t.rank < s.rank ∨
      (t.rank = s.rank ∧ t.helpful = s.helpful ∧ operation.thread ≠ s.helpful) := by
  rcases h.toDo_lt_or hst with hlt | ⟨rfl, hthread, hhelpful⟩ | ⟨heq, hthread, hcase⟩
  · exact Or.inl (Prod.Lex.toLex_lt_toLex.2 (Or.inl hlt))
  · exact Or.inr ⟨rfl, rfl, by rw [hthread, hhelpful]; exact nofun⟩
  · have hhelpful : t.helpful = s.helpful := by rw [heq]; rfl
    have htoDo : t.toDo = s.toDo := by
      rw [heq]
      rcases hcase with ⟨hs, ht, -⟩ | ⟨hs, ht, -⟩
      · simp only [toDo, hs, ht, Consumer.toDo]
      · simp only [toDo, hs, ht, Consumer.toDo]
    cases hturn : s.helpful with
    | producer =>
        refine Or.inr ⟨?_, hhelpful.trans hturn, by rw [hthread]; exact nofun⟩
        rw [rank, rank, htoDo, vainTests, vainTests, hhelpful, hturn]
    | consumer =>
        refine Or.inl (Prod.Lex.toLex_lt_toLex.2 (Or.inr ⟨htoDo, ?_⟩))
        have hready := h.of_helpful hturn
        rw [vainTests, vainTests, hhelpful, hturn, heq]
        rcases hcase with ⟨hs, ht, hq⟩ | ⟨hs, ht, hf⟩
        · have hf := hready.resolve_left (not_not.2 hq)
          simp [hs, ht, hq, hf]
        · have hq := hready.resolve_right (by rw [hf]; exact Bool.false_ne_true)
          simp [hs, ht, hq, hf]

theorem not_enabled (hproducer : s.producer = .finished) (hconsumer : s.consumer = .exited)
    (thread : Thread) : ¬ Enabled (Step b) Operation.thread thread s := by
  intro ⟨operation, t, _, hst⟩
  cases hst with
  | full hs _ | room hs _ | null hs | message hs | push hs _ | pushFailed _ hs _ | finish hs =>
      rw [hproducer] at hs
      exact absurd hs nofun
  | empty hs _ | nonempty hs _ | exit hs _ | retry hs _ | pop hs _ | popFailed _ hs _
  | processMessage hs _ | delete hs =>
      rw [hconsumer] at hs
      exact absurd hs nofun

end Pipeline

open Pipeline

/-- **The two threads come to an end**, in every fair interleaving: if no message fails in the
sequential program, the consumer leaves its loop, the producer is done by then, and so the join
returns. -/
theorem pipeline_terminates {b : Build} {input : List (Option Message)} {w : World}
    (hw : processAll b World.initial input.reduceOption = .ok w) {e : Schedule (Step b)}
    (hstart : e.state 0 = initial input) (hfair : e.Fair Operation.thread) :
    ∃ n, (e.state n).consumer = .exited ∧ (e.state n).producer = .finished := by
  have hfit : ∀ n, Fit b input.reduceOption (e.state n) :=
    e.invariant (hstart ▸ fit_initial input) fun _ _ _ h hst => h.step hst
  have hdone : ∃ n, (e.state n).consumer = .exited := by
    have henabled : ∀ s, Fit b input.reduceOption s → ¬ s.consumer = .exited →
        Enabled (Step b) Operation.thread (helpful s) s := fun s h hexit => h.enabled hw hexit
    have hhelp : ∀ s operation t, Fit b input.reduceOption s → ¬ s.consumer = .exited →
        Step b s operation t → operation.thread = helpful s → rank t < rank s := by
      intro s operation t h _ hst hthread
      rcases h.rank_step hst with hlt | ⟨_, _, hother⟩
      · exact hlt
      · exact absurd hthread hother
    refine e.eventually hfair hfit henabled hhelp fun s operation t h _ hst => ?_
    rcases h.rank_step hst with hlt | ⟨hrank, hhelpful, _⟩
    · exact Or.inl hlt
    · exact Or.inr ⟨hrank, hhelpful⟩
  obtain ⟨n, hexit⟩ := hdone
  exact ⟨n, hexit, (hfit n).knows.finished ((hfit n).knows.exited hexit)⟩

/-- The consumer tests twice in vain before the message comes. -/
theorem pipeline_terminates_waiting : ∃ e : Schedule (Step .release),
    e.state 0 = initial [some openingMessage] ∧ ∃ n, (e.state n).consumer = .exited := by
  have hrun : ∃ l t, Run (Step .release) (initial [some openingMessage]) l t ∧
      t.producer = .finished ∧ t.consumer = .exited :=
    ⟨_, _, .cons (.empty rfl rfl) <| .cons (.room rfl nofun) <| .cons (.retry rfl rfl) <|
      .cons (.empty rfl rfl) <| .cons (.message rfl) <| .cons (.retry rfl rfl) <|
      .cons (.push rfl rfl) <| .cons (.nonempty rfl nofun) <| .cons (.pop rfl rfl) <|
      .cons (.finish rfl) <| .cons (.processMessage rfl rfl) <| .cons (.delete rfl) <|
      .cons (.empty rfl rfl) <| .cons (.exit rfl rfl) <| .nil _, rfl, rfl⟩
  obtain ⟨l, t, hrun, hproducer, hconsumer⟩ := hrun
  obtain ⟨e, hstart, hfair⟩ := Schedule.exists_fair hrun
    (not_enabled hproducer hconsumer : ∀ thread, ¬ Enabled _ Operation.thread thread t)
  have hw : processAll .release World.initial [openingMessage] =
      .ok (World.after .release [openingMessage]) := processAll_after _ (by decide)
  obtain ⟨n, hexit, -⟩ := pipeline_terminates hw hstart hfair
  exact ⟨e, hstart, n, hexit⟩

end NasdaqItch
