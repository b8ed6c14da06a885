import Mathlib.Data.List.ReduceOption
import NasdaqItch.MarketClose
import NasdaqItch.Pipeline

/-!
# How much the two threads can lose

The producer is never farther ahead of the consumer than the queue has room. So what the
consumer leaves behind when it exits is at most the queue's capacity, counted from the last entry
of the file for which the producer had to see room. Everything within this bound does happen
(`pipeline_outcomes_iff`): the consumer takes as many messages as it likes, finds the queue empty,
and sleeps until the producer is done.

The lines of the report need not suffer from it. Once the market is closed messages change nothing
that is printed, and a file goes on after the close; if it goes on for at least the queue's
capacity, every interleaving prints the same lines (`lost_tail_harmless`).
-/

namespace NasdaqItch

open Runs

/-- What is still to come of the file, the chunk at hand included. -/
def Producer.entries : Producer → List (Option Message)
  | .waiting input => input
  | .parsing parsed input => parsed :: input
  | .pushing m input => some m :: input
  | .finished => []

theorem Producer.entries_reduceOption (p : Producer) : p.entries.reduceOption = p.toPush := by
  cases p with
  | pushing m input => exact List.reduceOption_cons_of_some m input
  | _ => rfl

namespace Pipeline

/-- How many messages the consumer has taken off the queue. -/
def taken (s : Pipeline) : Nat := s.processed.length + s.consumer.inHand.length

variable {b : Build} {input front back : List (Option Message)} {s t : Pipeline}
  {operation : Operation} {operations : List Operation} {messages done : List Message} {w : World}

/-! ## No farther ahead than the capacity -/

/-- The entries that the producer is done with carry, but for the last of them, fewer messages
than the consumer has taken and the queue can hold. -/
def Ahead (input : List (Option Message)) (s : Pipeline) : Prop :=
  ∃ passed, input = passed ++ s.producer.entries ∧
    passed.dropLast.reduceOption.length < s.taken + spscQueueCapacity ∧
    (s.producer.hasRoom → passed.reduceOption.length < s.taken + spscQueueCapacity)

theorem ahead_initial (input : List (Option Message)) : Ahead input (initial input) :=
  ⟨[], rfl, Nat.succ_pos _, nofun⟩

theorem Ahead.mono (h : Ahead input s) (hproducer : t.producer = s.producer)
    (htaken : s.taken ≤ t.taken) : Ahead input t := by
  obtain ⟨passed, hinput, hlast, hroom⟩ := h
  rw [← hproducer] at hinput hroom
  exact ⟨passed, hinput, by omega, fun hs => by have := hroom hs; omega⟩

theorem Ahead.pass {x : Option Message} {rest : List (Option Message)} (h : Ahead input s)
    (hs : s.producer.entries = x :: rest) (hroom : s.producer.hasRoom)
    (hproducer : t.producer = .waiting rest) (htaken : s.taken ≤ t.taken) : Ahead input t := by
  obtain ⟨passed, hinput, -, hpassed⟩ := h
  have hlt := hpassed hroom
  refine ⟨passed ++ [x], ?_, ?_, ?_⟩
  · rw [hinput, hs, hproducer, List.append_assoc]
    rfl
  · rw [List.dropLast_concat]
    omega
  · rw [hproducer]
    exact nofun

/-- With room in the queue, the consumer has taken almost everything that was pushed. -/
theorem Accounts.pushed_lt (h : Accounts b messages s)
    (hroom : s.queue.items.length < spscQueueCapacity) :
    s.pushed.length < s.taken + spscQueueCapacity := by
  rw [← h.pushed, List.length_append, List.length_append, taken]
  omega

theorem Accounts.pushed_eq {passed : List (Option Message)}
    (h : Accounts b input.reduceOption s) (hinput : input = passed ++ s.producer.entries) :
    passed.reduceOption = s.pushed := by
  have htoPush := h.toPush
  rw [hinput, List.reduceOption_append, Producer.entries_reduceOption] at htoPush
  exact (List.append_cancel_right htoPush).symm

theorem Ahead.step (h : Ahead input s) (haccounts : Accounts b input.reduceOption s)
    (hknows : Knows s) (hst : Step b s operation t) : Ahead input t := by
  cases hst with
  | full => exact h
  | room hs hq =>
      obtain ⟨passed, hinput, hlast, -⟩ := h
      have hpushed := haccounts.pushed_eq hinput
      rw [hs] at hinput
      refine ⟨passed, hinput, hlast, fun _ => ?_⟩
      rw [hpushed]
      exact haccounts.pushed_lt (not_not.1 fun hfull => hq (Fifo.writeAvailable_eq_zero.2 hfull))
  | null hs => exact h.pass (by rw [hs]; rfl) (by rw [hs]; trivial) rfl le_rfl
  | message hs =>
      obtain ⟨passed, hinput, hlast, hroom⟩ := h
      rw [hs] at hinput hroom
      exact ⟨passed, hinput, hlast, hroom⟩
  | push hs _ => exact h.pass (by rw [hs]; rfl) (by rw [hs]; trivial) rfl le_rfl
  | pushFailed _ hs hq =>
      exact absurd (hknows.room (by rw [hs]; trivial)) (Fifo.push_eq_none.1 hq)
  | finish hs =>
      obtain ⟨passed, hinput, hlast, -⟩ := h
      rw [hs] at hinput
      exact ⟨passed, hinput, hlast, nofun⟩
  | empty hs _ | nonempty hs _ | exit hs _ | retry hs _ | popFailed _ hs _ | delete hs =>
      exact h.mono rfl (by simp only [taken, hs, Consumer.inHand]; exact le_rfl)
  | pop hs _ => exact h.mono rfl (by simp [taken, hs, Consumer.inHand])
  | processMessage hs _ => exact h.mono rfl (by simp [taken, hs, Consumer.inHand])

theorem ahead (hrun : Run (Step b) (initial input) operations t) : Ahead input t := by
  refine hrun.history (I := fun _ => Ahead input) (ahead_initial input) ?_
  intro past s operation t hpast h hst
  obtain ⟨haccounts, hknows, -⟩ := invariants hpast
  exact h.step haccounts hknows hst

theorem processed_append (hrun : Run (Step b) (initial input) operations t)
    (hexit : t.consumer = .exited) : t.processed ++ t.queue.items = input.reduceOption := by
  obtain ⟨haccounts, hknows, -⟩ := invariants hrun
  have hfinished : t.producer = .finished := hknows.finished (hknows.exited hexit)
  rw [← haccounts.toPush, ← haccounts.pushed, hexit, hfinished]
  simp [Consumer.inHand, Producer.toPush]

/-! ## Everything within the bound happens -/

/-- All that was pushed is processed, and both threads are at their tests. -/
structure Idle (input : List (Option Message)) (s : Pipeline) : Prop where
  producer : s.producer = .waiting input
  consumer : s.consumer = .testing
  queue : s.queue.items = []

theorem exists_push {q : LockfreeSPSC} (h : q.items.length < spscQueueCapacity) (m : Message) :
    ∃ queue, q.push m = some queue ∧ queue.items = q.items ++ [m] := by
  have hroom : q.push m ≠ none := fun hq => Fifo.push_eq_none.1 hq h
  obtain ⟨queue, hq⟩ := Option.ne_none_iff_exists'.1 hroom
  exact ⟨queue, hq, Fifo.push_items hq⟩

theorem exists_pop {q : LockfreeSPSC} {m : Message} {items : List Message}
    (h : q.items = m :: items) : ∃ queue, q.pop = some (m, queue) ∧ queue.items = items := by
  have hnonempty : q.pop ≠ none := fun hq =>
    List.cons_ne_nil m items (h.symm.trans (Fifo.pop_eq_none.1 hq))
  obtain ⟨⟨m', queue⟩, hq⟩ := Option.ne_none_iff_exists'.1 hnonempty
  have hitems := Fifo.pop_items hq
  rw [h] at hitems
  obtain ⟨rfl, rfl⟩ := List.cons.inj hitems
  exact ⟨queue, hq, rfl⟩

theorem writeAvailable_ne_zero {q : LockfreeSPSC} (h : q.items.length < spscQueueCapacity) :
    q.writeAvailable ≠ 0 := fun hq => Fifo.writeAvailable_eq_zero.1 hq h

theorem Idle.deliver {x : Option Message} (h : Idle (x :: back) s)
    (haccounts : Accounts b messages s) (hw : processAll b World.initial messages = .ok w) :
    ∃ operations t, Run (Step b) s operations t ∧ Idle back t ∧
      t.processed = s.processed ++ [x].reduceOption := by
  have hlength : s.queue.items.length < spscQueueCapacity := by rw [h.queue]; decide
  have hroom := writeAvailable_ne_zero hlength
  cases x with
  | none =>
      exact ⟨_, _, .cons (.room h.producer hroom) <| .cons (.null rfl) <| .nil _,
        ⟨rfl, h.consumer, h.queue⟩, (List.append_nil _).symm⟩
  | some m =>
      obtain ⟨queue, hpush, hitems⟩ := exists_push hlength m
      rw [h.queue, List.nil_append] at hitems
      obtain ⟨queue', hpop, hempty⟩ := exists_pop hitems
      have hnonempty : queue.readAvailable ≠ 0 := by
        rw [Ne, Fifo.readAvailable_eq_zero, hitems]
        exact nofun
      -- The message is the next one of the sequential program.
      have hworld : ∃ world, consume b s.world m = .ok world := by
        have hmessages : s.processed ++ m :: back.reduceOption = messages := by
          rw [← haccounts.toPush, ← haccounts.pushed, h.consumer, h.queue, h.producer]
          simp [Consumer.inHand, Producer.toPush]
        rw [← hmessages] at hw
        obtain ⟨v, hpast, hrest⟩ := run_append_iff.1 (processAll_eq_ok.1 hw)
        obtain rfl := hpast.deterministic (processAll_eq_ok.1 haccounts.world)
        obtain ⟨world, hworld, -⟩ := run_cons_iff.1 hrest
        exact ⟨world, hworld⟩
      obtain ⟨world, hworld⟩ := hworld
      exact ⟨_, _, .cons (.room h.producer hroom) <| .cons (.message rfl) <|
        .cons (.push rfl hpush) <| .cons (.nonempty h.consumer hnonempty) <|
        .cons (.pop rfl hpop) <| .cons (.processMessage rfl hworld) <| .cons (.delete rfl) <|
        .nil _, ⟨rfl, rfl, hempty⟩, rfl⟩

theorem exists_idle (hw : processAll b World.initial (front ++ back).reduceOption = .ok w) :
    ∃ operations t, Run (Step b) (initial (front ++ back)) operations t ∧ Idle back t ∧
      t.processed = front.reduceOption := by
  induction front using List.reverseRecOn generalizing back with
  | nil => exact ⟨[], _, .nil _, ⟨rfl, rfl, rfl⟩, rfl⟩
  | append_singleton front x ih =>
      rw [List.append_assoc] at hw ⊢
      obtain ⟨operations, s, hrun, hidle, hprocessed⟩ := ih hw
      obtain ⟨haccounts, -, -⟩ := invariants hrun
      obtain ⟨operations', t, hrun', hidle', hprocessed'⟩ := hidle.deliver haccounts hw
      refine ⟨operations ++ operations', t, run_append_iff.2 ⟨s, hrun, hrun'⟩, hidle', ?_⟩
      rw [hprocessed', hprocessed, List.reduceOption_append]

/-- The producer alone, while there is room: all entries but the last must leave room for the
next one. -/
theorem exists_pushAll (hs : s.producer = .waiting back)
    (hroom : back = [] ∨
      s.queue.items.length + back.dropLast.reduceOption.length < spscQueueCapacity) :
    ∃ operations t, Run (Step b) s operations t ∧ t.producer = .waiting [] ∧
      t.consumer = s.consumer ∧ t.processed = s.processed := by
  induction back generalizing s with
  | nil => exact ⟨[], s, .nil s, hs, rfl, rfl⟩
  | cons x back ih =>
      have hall := hroom.resolve_left (List.cons_ne_nil x back)
      have hlength : s.queue.items.length < spscQueueCapacity := by omega
      have hfirst := writeAvailable_ne_zero hlength
      -- The room that is left after this entry.
      have hrest : ∀ items : List Message,
          items.length ≤ s.queue.items.length + [x].reduceOption.length →
          back = [] ∨ items.length + back.dropLast.reduceOption.length < spscQueueCapacity := by
        intro items hitems
        cases back with
        | nil => exact Or.inl rfl
        | cons y back =>
            right
            rw [List.dropLast_cons_of_ne_nil (List.cons_ne_nil y back),
              ← List.singleton_append, List.reduceOption_append, List.length_append] at hall
            omega
      cases x with
      | none =>
          obtain ⟨operations, t, hrun, hproducer, hconsumer, hprocessed⟩ :=
            ih (s := { s with producer := .waiting back }) rfl (hrest s.queue.items le_rfl)
          exact ⟨_, t, .cons (.room hs hfirst) <| .cons (.null rfl) hrun, hproducer, hconsumer,
            hprocessed⟩
      | some m =>
          obtain ⟨queue, hpush, hitems⟩ := exists_push hlength m
          have hqueue : queue.items.length ≤
              s.queue.items.length + [some m].reduceOption.length := by
            rw [hitems, List.length_append]
            rfl
          obtain ⟨operations, t, hrun, hproducer, hconsumer, hprocessed⟩ :=
            ih (s := { s with
                queue := queue, producer := .waiting back, pushed := s.pushed ++ [m] })
              rfl (hrest queue.items hqueue)
          exact ⟨_, t, .cons (.room hs hfirst) <| .cons (.message rfl) <|
            .cons (.push rfl hpush) hrun, hproducer, hconsumer, hprocessed⟩

theorem split_reduceOption (h : done <+: input.reduceOption) :
    ∃ front back, input = front ++ back ∧ front.reduceOption = done := by
  induction input generalizing done with
  | nil => exact ⟨[], [], rfl, (List.prefix_nil.1 h).symm⟩
  | cons x input ih =>
      cases x with
      | none =>
          rw [List.reduceOption_cons_of_none] at h
          obtain ⟨front, back, rfl, hdone⟩ := ih h
          exact ⟨none :: front, back, rfl, hdone⟩
      | some m =>
          rw [List.reduceOption_cons_of_some, List.prefix_cons_iff] at h
          rcases h with rfl | ⟨done, rfl, hdone⟩
          · exact ⟨[], some m :: input, rfl, rfl⟩
          · obtain ⟨front, back, rfl, hfront⟩ := ih hdone
            refine ⟨some m :: front, back, rfl, ?_⟩
            rw [List.reduceOption_cons_of_some, hfront]

/-- The consumer finds the queue empty, and looks again when the producer is done. -/
theorem Idle.exists_exit (h : Idle back s)
    (hroom : back = [] ∨ back.dropLast.reduceOption.length < spscQueueCapacity) :
    ∃ operations t, Run (Step b) s operations t ∧ t.consumer = .exited ∧
      t.processed = s.processed := by
  have hempty : s.queue.readAvailable = 0 := Fifo.readAvailable_eq_zero.2 h.queue
  obtain ⟨operations, t, hrun, hproducer, hconsumer, hprocessed⟩ :=
    exists_pushAll (b := b) (s := { s with consumer := .sawEmpty }) h.producer (by
      show back = [] ∨ s.queue.items.length + _ < _
      rw [h.queue, List.length_nil, Nat.zero_add]
      exact hroom)
  have hend : Run (Step b) t [.setWorkFinished, .isWorkFinished]
      { t with producer := .finished, workFinished := true, consumer := .exited } :=
    .cons (.finish hproducer) <| .cons (.exit hconsumer rfl) <| .nil _
  exact ⟨_, _, .cons (.empty h.consumer hempty) (run_append_iff.2 ⟨t, hrun, hend⟩), rfl,
    hprocessed⟩

/-- Every prefix within the bound is what some interleaving processes. -/
theorem exists_run (hw : processAll b World.initial input.reduceOption = .ok w)
    (hdone : done <+: input.reduceOption)
    (hlength : input.dropLast.reduceOption.length < done.length + spscQueueCapacity) :
    ∃ operations t, Run (Step b) (initial input) operations t ∧ t.consumer = .exited ∧
      t.processed = done := by
  obtain ⟨front, back, rfl, hfront⟩ := split_reduceOption hdone
  obtain ⟨operations, s, hrun, hidle, hprocessed⟩ := exists_idle hw
  have hroom : back = [] ∨ back.dropLast.reduceOption.length < spscQueueCapacity := by
    rcases eq_or_ne back [] with rfl | hne
    · exact Or.inl rfl
    · right
      rw [List.dropLast_append_of_ne_nil hne, List.reduceOption_append, List.length_append,
        hfront] at hlength
      omega
  obtain ⟨operations', t, hrun', hexit, hprocessed'⟩ := hidle.exists_exit (b := b) hroom
  exact ⟨_, t, run_append_iff.2 ⟨s, hrun, hrun'⟩, hexit,
    hprocessed'.trans (hprocessed.trans hfront)⟩

end Pipeline

open Pipeline

/-- **What the consumer may have processed when it exits**, over all interleavings, if no message of
the file fails: exactly the prefixes of the file's messages that are longer than what all chunks
but the last carry, less the queue's capacity. -/
theorem pipeline_outcomes_iff {b : Build} {input : List (Option Message)} {w : World}
    (hw : processAll b World.initial input.reduceOption = .ok w) (done : List Message) :
    (∃ operations t, Run (Step b) (initial input) operations t ∧ t.consumer = .exited ∧
        t.processed = done) ↔
      done <+: input.reduceOption ∧
        input.dropLast.reduceOption.length < done.length + spscQueueCapacity := by
  constructor
  · rintro ⟨operations, t, hrun, hexit, rfl⟩
    obtain ⟨-, hknows, -⟩ := invariants hrun
    have hfinished : t.producer = .finished := hknows.finished (hknows.exited hexit)
    refine ⟨⟨t.queue.items, processed_append hrun hexit⟩, ?_⟩
    obtain ⟨passed, hinput, hlast, -⟩ := ahead hrun
    rw [hfinished, Producer.entries, List.append_nil] at hinput
    rw [taken, hexit] at hlast
    rw [hinput]
    exact hlast
  · intro ⟨hdone, hlength⟩
    exact exists_run hw hdone hlength

/-- Of forty messages, eight are enough. -/
theorem pipeline_outcomes_forty :
    ∃ operations t,
      Run (Step .release) (initial (List.replicate 40 (some openingMessage))) operations t ∧
        t.consumer = .exited ∧ t.processed = List.replicate 8 openingMessage := by
  have hw : processAll .release World.initial
      (List.replicate 40 (some openingMessage)).reduceOption =
        .ok (World.after .release (List.replicate 40 openingMessage)) :=
    processAll_after (List.replicate 40 openingMessage) (by decide)
  exact (pipeline_outcomes_iff hw _).2 ⟨⟨List.replicate 32 openingMessage, rfl⟩, by decide⟩

/-! ## A day that goes on after the close -/

namespace ClosedDay

variable {day : ClosedDay} {b : Build} {w w₁ w₂ : World} {done done' : List Message}

/-- How many messages come after the close instant. -/
def afterClose (day : ClosedDay) : Nat := day.after.countP (day.closeInstant < ·.timestamp)

/-- **A cut after the close instant does not show**: a run over a prefix that lacks only such
messages has kept the slots of one state, which does not depend on the prefix. -/
theorem exists_keepsUpTo (hw : processAll b World.initial day.stream = .ok w) :
    ∃ w₁ : World, w₁.Consistent ∧ ∀ done w', done <+: day.stream →
      day.stream.length ≤ done.length + day.afterClose →
      processAll b World.initial done = .ok w' →
      ∀ i, w₁.vwapManager.KeepsUpTo i w'.vwapManager := by
  have hsorted := (List.pairwise_append.1 day.sorted).2.1.of_cons
  obtain ⟨early, late, hafter, hearly, hlate⟩ := split_late day.closeInstant hsorted
  have hcount : day.afterClose = late.length := by
    rw [afterClose, hafter, List.countP_append, List.countP_eq_zero.2 (by simpa using hearly),
      List.countP_eq_length.2 (by simpa using hlate), Nat.zero_add]
  have hstream : day.stream = (day.before ++ day.event :: early) ++ late := by
    rw [stream, hafter, List.append_assoc, List.cons_append]
  obtain ⟨w₁, hmid, -, hclose, hlast⟩ := cut hw hafter
  refine ⟨w₁, World.consistent_initial.processAll hmid, fun done w' hdone hlong hrun i => ?_⟩
  -- The prefix goes beyond the close instant, and what it lacks is late.
  obtain ⟨kept, rfl⟩ : day.before ++ day.event :: early <+: done := by
    refine List.prefix_of_prefix_length_le ⟨late, hstream.symm⟩ hdone ?_
    rw [hstream, List.length_append] at hlong
    omega
  have hkept : ∀ m ∈ kept, m ∈ late := by
    rw [hstream, List.prefix_append_right_inj] at hdone
    exact fun m hm => hdone.subset hm
  obtain ⟨w₁', hmid', hkeptRun⟩ := run_append_iff.1 (processAll_eq_ok.1 hrun)
  rw [hmid'.deterministic (processAll_eq_ok.1 hmid)] at hkeptRun
  refine (frozen_run hkeptRun (fun m hm => ?_) fun m hm => hlast m (hkept m hm)).keepsUpTo i
  rw [hclose]
  exact decide_eq_true (hlate m (hkept m hm))

theorem sameLines_of_prefix (hw : processAll b World.initial day.stream = .ok w)
    (hdone : done <+: day.stream) (hlong : day.stream.length ≤ done.length + day.afterClose)
    (hrun : processAll b World.initial done = .ok w₁)
    (hdone' : done' <+: day.stream) (hlong' : day.stream.length ≤ done'.length + day.afterClose)
    (hrun' : processAll b World.initial done' = .ok w₂) (i : Period) :
    SameLines b w₁.vwapManager w₂.vwapManager i := by
  obtain ⟨w₀, hconsistent, hkeeps⟩ := exists_keepsUpTo hw
  exact (hkeeps done w₁ hdone hlong hrun i).sameLines (hkeeps done' w₂ hdone' hlong' hrun' i)
    hconsistent.maps (World.consistent_initial.processAll hrun).maps
    (World.consistent_initial.processAll hrun').maps

end ClosedDay

/-- **The loss does not show**, when the file goes on after the close for at least the queue's
capacity: every interleaving prints the lines of the sequential program. -/
theorem lost_tail_harmless {b : Build} {day : ClosedDay} {input : List (Option Message)} {w : World}
    (hinput : input.reduceOption = day.stream)
    (hw : processAll b World.initial day.stream = .ok w)
    (hlong : spscQueueCapacity ≤ day.afterClose) {operations : List Operation} {t : Pipeline}
    (hrun : Run (Step b) (initial input) operations t) (hexit : t.consumer = .exited) (i : Period) :
    SameLines b t.world.vwapManager w.vwapManager i := by
  obtain ⟨haccounts, -, -⟩ := invariants hrun
  have hall := processed_append hrun hexit
  rw [hinput] at hall
  refine ClosedDay.sameLines_of_prefix hw ⟨_, hall⟩ ?_ haccounts.world List.prefix_rfl
    (Nat.le_add_right _ _) hw i
  rw [← hall, List.length_append]
  exact Nat.add_le_add_left (t.queue.length_le.trans hlong) _

/-- After the early close, trades go on for a while. -/
def longDay : ClosedDay where
  before := earlyClose.before
  event := earlyClose.event
  after := List.replicate 32 (trade 1 (clock 14 0) 100 10 5)
  closes := rfl
  last := by decide
  sorted := by decide

theorem lost_tail_harmless_long :
    ∃ operations t, Run (Step .release) (initial (longDay.stream.map some)) operations t ∧
      t.consumer = .exited ∧ t.processed = longDay.before ++ [longDay.event] ∧
      ∀ i, SameLines .release t.world.vwapManager
        (World.after .release longDay.stream).vwapManager i := by
  have hw := processAll_after (b := .release) longDay.stream (by decide)
  have hinput : (longDay.stream.map some).reduceOption = longDay.stream := rfl
  have hdone : longDay.before ++ [longDay.event] <+: (longDay.stream.map some).reduceOption :=
    ⟨longDay.after, rfl⟩
  obtain ⟨operations, t, hrun, hexit, hprocessed⟩ := exists_run (hinput ▸ hw) hdone (by decide)
  exact ⟨operations, t, hrun, hexit, hprocessed,
    fun i => lost_tail_harmless hinput hw (by decide) hrun hexit i⟩

end NasdaqItch
