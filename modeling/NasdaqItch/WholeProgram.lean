import NasdaqItch.Decoding
import NasdaqItch.Framing
import NasdaqItch.LostTail
import NasdaqItch.TapeReport

/-!
# From the file to the report

`main` as a whole: the bytes of a file go through the producer's loop, the two threads and the
report. Two things can differ from what the file says. The message of the last frame is pushed
twice, and the consumer may leave the last messages behind. On a file of complete frames that goes
on after the close neither shows: the messages involved come after the close, and whatever the
scheduler does, `main` writes the lines of the sequential program on the messages of the file
(`main_writes_iff`). If these are what an exchange sends, and its tape is regular, they are the
lines of the tape (`main_writes_vwap`).
-/

namespace NasdaqItch

open Runs VWAPManager Pipeline

/-! ## What is written -/

/-- After some interleaving at whose end the consumer has left its loop, the file of period `i`
holds these lines. -/
def PipelineWrites (b : Build) (input : List (Option Message)) (i : Period) (lines : Set Line) :
    Prop :=
  ∃ operations t order issues v out, Run (Step b) (initial input) operations t ∧
    t.consumer = .exited ∧
    outputBrokenTradeAdjustedVWAP b t.world.vwapManager order issues = .ok (v, out) ∧
    lines = linesOf out i

/-- What `main` can write for an input file with these bytes. -/
def MainWrites (b : Build) (bytes : Bytes) (i : Period) (lines : Set Line) : Prop :=
  PipelineWrites b (feed ⟨bytes, false⟩ fun _ => 0) i lines

/-- The same for the sequential program and these messages. -/
def SequentialWrites (b : Build) (messages : List Message) (i : Period) (lines : Set Line) : Prop :=
  ∃ w order issues v out, processAll b World.initial messages = .ok w ∧
    outputBrokenTradeAdjustedVWAP b w.vwapManager order issues = .ok (v, out) ∧
    lines = linesOf out i

theorem SameLines.eq {b : Build} {v v' u u' : VWAPManager} {i : Period}
    {order order' issues issues'} {out out' : List (UInt16 × List (Period × Line))}
    (h : SameLines b v v' i)
    (hout : outputBrokenTradeAdjustedVWAP b v order issues = .ok (u, out))
    (hout' : outputBrokenTradeAdjustedVWAP b v' order' issues' = .ok (u', out')) :
    linesOf out i = linesOf out' i := by
  obtain ⟨_, _, _, _, h₁, h₂, heq⟩ := h order issues order' issues'
  obtain ⟨-, rfl⟩ := Prod.mk.inj (Except.ok.inj (hout.symm.trans h₁))
  obtain ⟨-, rfl⟩ := Prod.mk.inj (Except.ok.inj (hout'.symm.trans h₂))
  exact heq

/-! ## The last message again -/

namespace ClosedDay

variable (day : ClosedDay)

theorem le_last {m last : Message} (hm : m ∈ day.before ++ day.event :: day.after)
    (hlast : last ∈ day.after.getLast?) : m.timestamp ≤ last.timestamp := by
  obtain ⟨init, hinit⟩ : ∃ init, day.after = init ++ [last] := List.getLast?_eq_some_iff.1 hlast
  have hsorted := day.sorted
  rw [hinit, ← List.cons_append, ← List.append_assoc] at hsorted hm
  rcases List.mem_append.1 hm with hm | hm
  · exact (List.pairwise_append.1 hsorted).2.2 m hm last (List.mem_singleton_self last)
  · rw [List.mem_singleton.1 hm]
    exact UInt64.le_refl _

/-- The day with its last message repeated, if there is one after the event. -/
def again : ClosedDay where
  before := day.before
  event := day.event
  after := day.after ++ day.after.getLast?.toList
  closes := day.closes
  last := by
    intro m hm
    rcases List.mem_append.1 hm with hm | hm
    · exact day.last m hm
    · exact day.last m (List.mem_of_getLast? (Option.mem_toList.1 hm))
  sorted := by
    rw [← List.cons_append, ← List.append_assoc, List.pairwise_append]
    refine ⟨day.sorted, ?_, fun m hm last hlast => day.le_last hm (Option.mem_toList.1 hlast)⟩
    cases day.after.getLast? <;> simp

variable {day}

theorem stream_again : day.again.stream = day.stream ++ day.after.getLast?.toList := by
  rw [stream, stream, again, ← List.cons_append, List.append_assoc]

theorem afterClose_again (hlate : 0 < day.afterClose) :
    day.again.afterClose = day.afterClose + day.after.getLast?.toList.length := by
  have hcount : day.again.afterClose = day.afterClose +
      day.after.getLast?.toList.countP (day.closeInstant < ·.timestamp) := List.countP_append
  rw [hcount, Nat.add_left_cancel_iff, List.countP_eq_length]
  intro last hlast
  obtain ⟨m, hm, hmLate⟩ := List.countP_pos_iff.1 hlate
  have hle := day.le_last (List.mem_append_right _ (List.mem_cons_of_mem _ hm))
    (Option.mem_toList.1 hlast)
  exact decide_eq_true (UInt64.lt_of_lt_of_le (of_decide_eq_true hmLate) hle)

end ClosedDay

/-- **What the producer pushes** for a file of complete frames that carry the messages of a day
which goes on after the close: these messages, and perhaps the last of them once more. -/
theorem pushedFrom_day {day : ClosedDay} {frames : List Frame}
    (hframes : frames.filterMap Frame.decode = day.stream) (hlate : 0 < day.afterClose) :
    pushedFrom (frames.flatMap Frame.bytes) = day.stream ∨
      pushedFrom (frames.flatMap Frame.bytes) = day.again.stream := by
  cases frames using List.reverseRecOn with
  | nil => exact absurd (congrArg List.length hframes) (by simp [ClosedDay.stream])
  | append_singleton frames f =>
      rw [List.filterMap_append, List.filterMap_cons, List.filterMap_nil] at hframes
      rw [last_frame_pushed_twice]
      cases hf : f.decode with
      | none =>
          rw [hf, List.append_nil] at hframes
          left
          rw [hframes, Option.toList_none, List.append_nil, List.append_nil]
      | some m =>
          rw [hf] at hframes
          right
          have hafter : day.after ≠ [] := by
            intro hnil
            rw [ClosedDay.afterClose, hnil] at hlate
            exact absurd hlate (Nat.lt_irrefl 0)
          have hlast : day.after.getLast? = some m := by
            have hstream : day.stream.getLast? = some m := by
              rw [← hframes]
              exact List.getLast?_concat ..
            rwa [ClosedDay.stream, List.getLast?_append_of_ne_nil _ (List.cons_ne_nil _ _),
              List.getLast?_cons_of_ne_nil hafter] at hstream
          rw [Option.toList_some, hframes, ClosedDay.stream_again, hlast, Option.toList_some]

/-! ## The whole program -/

/-- The two threads on a day that goes on after the close, against the sequential program on the
same messages, the last ones perhaps left out. -/
theorem pipelineWrites_iff {b : Build} {day : ClosedDay} {input : List (Option Message)}
    {done : List Message} {w : World} (hinput : input.reduceOption = day.stream)
    (hlong : spscQueueCapacity ≤ day.afterClose)
    (hw : processAll b World.initial day.stream = .ok w) (hdone : done <+: day.stream)
    (hlength : day.stream.length ≤ done.length + day.afterClose) (i : Period) :
    ∃ written, (∀ lines, PipelineWrites b input i lines ↔ lines = written) ∧
      ∀ lines, SequentialWrites b done i lines ↔ lines = written := by
  obtain ⟨w₀, hw₀⟩ : ∃ w₀, processAll b World.initial done = .ok w₀ := by
    obtain ⟨rest, hrest⟩ := hdone
    rw [← hrest] at hw
    obtain ⟨w₀, hrun, -⟩ := run_append_iff.1 (processAll_eq_ok.1 hw)
    exact ⟨w₀, processAll_eq_ok.2 hrun⟩
  have hsame : ∀ done' w', done' <+: day.stream →
      day.stream.length ≤ done'.length + day.afterClose →
      processAll b World.initial done' = .ok w' →
      SameLines b w'.vwapManager w₀.vwapManager i := fun done' w' hdone' hlength' hrun =>
    ClosedDay.sameLines_of_prefix hw hdone' hlength' hrun hdone hlength hw₀ i
  have hexited : ∀ {operations t}, Run (Step b) (initial input) operations t →
      t.consumer = .exited → SameLines b t.world.vwapManager w₀.vwapManager i := by
    intro operations t hrun hexit
    obtain ⟨haccounts, -, -⟩ := invariants hrun
    have hall : t.processed ++ t.queue.items = day.stream :=
      (processed_append hrun hexit).trans hinput
    refine hsame t.processed t.world ⟨_, hall⟩ ?_ haccounts.world
    rw [← hall, List.length_append]
    exact Nat.add_le_add_left (t.queue.length_le.trans hlong) _
  obtain ⟨v₀, out₀, -, -, hout₀, -, -⟩ :=
    hsame done w₀ hdone hlength hw₀ (.any _) (fun _ => .any _) (.any _) (fun _ => .any _)
  refine ⟨linesOf out₀ i, fun lines => ⟨?_, ?_⟩, fun lines => ⟨?_, ?_⟩⟩
  · rintro ⟨operations, t, order, issues, v, out, hrun, hexit, hout, rfl⟩
    exact (hexited hrun hexit).eq hout hout₀
  · rintro rfl
    -- In one interleaving the consumer processes everything.
    have hdropLast : input.dropLast.reduceOption.length ≤ day.stream.length :=
      hinput ▸ ((List.dropLast_sublist input).filterMap id).length_le
    obtain ⟨operations, t, hrun, hexit, -⟩ := exists_run (b := b) (hinput ▸ hw)
      (hinput ▸ List.prefix_rfl : day.stream <+: input.reduceOption)
      (Nat.lt_of_le_of_lt hdropLast (Nat.lt_add_of_pos_right (by decide)))
    obtain ⟨v, out, -, -, hout, -, -⟩ :=
      hexited hrun hexit (.any _) (fun _ => .any _) (.any _) fun _ => .any _
    exact ⟨operations, t, _, _, v, out, hrun, hexit, hout,
      ((hexited hrun hexit).eq hout hout₀).symm⟩
  · rintro ⟨w', order, issues, v, out, hrun, hout, rfl⟩
    obtain rfl := Except.ok.inj (hw₀.symm.trans hrun)
    exact (hsame done w₀ hdone hlength hw₀).eq hout hout₀
  · rintro rfl
    exact ⟨w₀, _, _, v₀, out₀, hw₀, hout₀, rfl⟩

/-- What is pushed for such a file are the messages of a day, too, and the file's are a prefix of
them that leaves out no message before the close. -/
theorem exists_pushedDay {day : ClosedDay} {frames : List Frame}
    (hframes : frames.filterMap Frame.decode = day.stream)
    (hlong : spscQueueCapacity ≤ day.afterClose) :
    ∃ pushed : ClosedDay, pushedFrom (frames.flatMap Frame.bytes) = pushed.stream ∧
      spscQueueCapacity ≤ pushed.afterClose ∧ day.stream <+: pushed.stream ∧
        pushed.stream.length ≤ day.stream.length + pushed.afterClose := by
  have hlate : 0 < day.afterClose := Nat.lt_of_lt_of_le (by decide) hlong
  rcases pushedFrom_day hframes hlate with hday | hagain
  · exact ⟨day, hday, hlong, List.prefix_rfl, Nat.le_add_right _ _⟩
  · have hafterClose := ClosedDay.afterClose_again hlate
    refine ⟨day.again, hagain, ?_, ⟨_, ClosedDay.stream_again.symm⟩, ?_⟩
    · omega
    · rw [ClosedDay.stream_again, List.length_append]
      omega

/-- **`main` writes the lines of the file.** For every file of complete frames whose messages are
those of a day that goes on after the close for at least the queue's capacity, if no message fails:
whatever the scheduler does and in whatever order the maps are iterated, `main` writes one set of
lines, and this is what the sequential program writes for the messages of the file. -/
theorem main_writes_iff {b : Build} {day : ClosedDay} {frames : List Frame} {w : World}
    (hframes : frames.filterMap Frame.decode = day.stream)
    (hlong : spscQueueCapacity ≤ day.afterClose)
    (hw : processAll b World.initial (pushedFrom (frames.flatMap Frame.bytes)) = .ok w)
    (i : Period) :
    ∃ written, (∀ lines, MainWrites b (frames.flatMap Frame.bytes) i lines ↔ lines = written) ∧
      ∀ lines, SequentialWrites b day.stream i lines ↔ lines = written := by
  obtain ⟨pushed, hpushed, hlate, hdone, hlength⟩ := exists_pushedDay hframes hlong
  exact pipelineWrites_iff hpushed hlate (hpushed ▸ hw) hdone hlength i

/-- **`main` writes the volume-weighted average prices** of the trades that are kept. If the
messages of such a file are what an exchange can send, their tape is regular, and an erased entry
keeps its bytes until its price is read, then whatever the scheduler does, `main` writes exactly
the lines of the tape. -/
theorem main_writes_vwap {b : Build} {day : ClosedDay} {frames : List Frame} {w : World}
    (hread : ∀ data, b.readErased data = data.price)
    (hframes : frames.filterMap Frame.decode = day.stream)
    (hlong : spscQueueCapacity ≤ day.afterClose)
    (hw : processAll b World.initial (pushedFrom (frames.flatMap Frame.bytes)) = .ok w)
    (hwf : WellFormed day.stream) (hregular : (Tape.after day.stream).Regular) (i : Period)
    (lines : Set Line) :
    MainWrites b (frames.flatMap Frame.bytes) i lines ↔
      lines = (Tape.after day.stream).lines i := by
  obtain ⟨pushed, hpushed, hlate, hdone, hlength⟩ := exists_pushedDay hframes hlong
  obtain ⟨written, hmain, hsequential⟩ :=
    pipelineWrites_iff hpushed hlate (hpushed ▸ hw) hdone hlength i
  -- A timestamp is read from six bytes.
  have h48 : ∀ m ∈ day.stream, m.timestamp.toNat < 2 ^ 48 := by
    intro m hm
    rw [← hframes] at hm
    obtain ⟨f, -, hf⟩ := List.mem_filterMap.1 hm
    exact (Frame.decode_eq_some_iff.1 hf).2.1
  obtain ⟨w', hw', hrecords⟩ := tape_run hread hwf h48
  obtain ⟨v, out, hout, hlines⟩ := hrecords.exists_output (b := b) hregular
    (World.consistent_initial.processAll hw').maps (.any _) fun _ => .any _
  have htape : (Tape.after day.stream).lines i = written :=
    (hsequential _).1 ⟨w', _, _, v, out, hw', hout, (hlines i).symm⟩
  rw [htape]
  exact hmain lines

/-- A trade at 10:00. -/
def tradeFrame : Frame where
  ignored := [0, 44]
  header := ['P'.toUInt8, 0, 1, 0, 0, 32, 189, 231, 54, 64, 0]
  body := [0, 0, 0, 0, 0, 0, 0, 0, 66, 0, 0, 0, 100, 65, 32, 32, 32, 32, 32, 32, 32, 0, 0, 0, 100,
    0, 0, 0, 0, 0, 0, 0, 1]
  ignored_length := rfl
  header_length := rfl
  body_length := rfl

/-- The market closes at noon. -/
def closingFrame : Frame where
  ignored := [0, 12]
  header := ['S'.toUInt8, 0, 0, 0, 0, 39, 74, 72, 167, 128, 0]
  body := [eventCodeEndOfMarketHours]
  ignored_length := rfl
  header_length := rfl
  body_length := rfl

/-- Another event, at 14:00. -/
def endingFrame : Frame where
  ignored := [0, 12]
  header := ['S'.toUInt8, 0, 0, 0, 0, 45, 214, 170, 24, 192, 0]
  body := ['C'.toUInt8]
  ignored_length := rfl
  header_length := rfl
  body_length := rfl

/-- Two trades at the same price, and 32 events after the close. -/
def quietDay : ClosedDay where
  before :=
    [startsTrading 1 (clock 9 0), trade 1 (clock 10 0) 100 100 1, trade 1 (clock 10 0) 100 100 1]
  event := ⟨⟨'S'.toUInt8, 0, clock 12 0⟩, .systemEvent ⟨eventCodeEndOfMarketHours⟩⟩
  after := List.replicate 32 ⟨⟨'S'.toUInt8, 0, clock 14 0⟩, .systemEvent ⟨'C'.toUInt8⟩⟩
  closes := rfl
  last := by decide
  sorted := by decide

def quietFile : List Frame :=
  [openingFrame, tradeFrame, tradeFrame, closingFrame] ++ List.replicate 32 endingFrame

theorem quietFile_decode : quietFile.filterMap Frame.decode = quietDay.stream := by
  have hopening : openingFrame.decode = some (startsTrading 1 (clock 9 0)) := by decide
  have htrade : tradeFrame.decode = some (trade 1 (clock 10 0) 100 100 1) := by decide
  have hclosing : closingFrame.decode = some quietDay.event := by decide
  have hending : endingFrame.decode =
      some ⟨⟨'S'.toUInt8, 0, clock 14 0⟩, .systemEvent ⟨'C'.toUInt8⟩⟩ := by decide
  rw [quietFile, List.filterMap_append, List.filterMap_cons_some hopening,
    List.filterMap_cons_some htrade, List.filterMap_cons_some htrade,
    List.filterMap_cons_some hclosing, List.filterMap_nil,
    List.filterMap_replicate_of_some hending]
  rfl

theorem quietFile_runs : (processAll .release World.initial
    (pushedFrom (quietFile.flatMap Frame.bytes))).toBool = true := by
  rcases pushedFrom_day quietFile_decode (by decide) with hpushed | hpushed
  · rw [hpushed]
    decide
  · rw [hpushed]
    decide

theorem main_writes_iff_quiet : ∃ written,
    (∀ lines, MainWrites .release (quietFile.flatMap Frame.bytes) 1 lines ↔ lines = written) ∧
      ∀ lines, SequentialWrites .release quietDay.stream 1 lines ↔ lines = written :=
  main_writes_iff quietFile_decode (by decide) (processAll_after _ quietFile_runs) 1

theorem main_writes_vwap_quiet :
    MainWrites .release (quietFile.flatMap Frame.bytes) 1
      ((Tape.after quietDay.stream).lines 1) :=
  (main_writes_vwap (fun _ => rfl) quietFile_decode (by decide)
    (processAll_after _ quietFile_runs) (by decide)
    ⟨by decide, by decide, by decide, by decide⟩ 1 _).2 rfl

/-- The one line of that file. -/
example : (Tape.after quietDay.stream).vwap 1 1 = 100 := by decide

end NasdaqItch
