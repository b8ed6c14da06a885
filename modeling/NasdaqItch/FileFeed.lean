import Mathlib.Data.List.ReduceOption
import NasdaqItch.Parse
import NasdaqItch.Reachable

/-!
# Reading the file

The producer's loop of `src/main.cpp`: read the 13 bytes before a body, then the body, into one
64-byte buffer that is never cleared, and parse.

The loop tests the stream only at its top, so it always runs one round too many: when it has read
the last complete frame the stream is still good, the next read fails, and the round goes on with
what the buffer happens to hold. Whether it pushes a message then depends on the type byte it
finds there (`frames_delivered_iff`). For a file that ends with a complete frame that is the type
of this frame, and its message is pushed twice (`last_frame_pushed_twice`).
-/

namespace NasdaqItch

/-! ## The loop -/

abbrev bufferSize : Nat := 64

abbrev numberOfBytesForHeaderChunk : Nat := 13

abbrev numberOfBytesOffsetForHeaderChunk : Nat := 2

/-- One round of `while(file)`: the stream and the buffer afterwards, and what `getMessage`
returned. -/
def feedOnce (file : Istream) (buffer : Chars) : Istream × Chars × Option Message :=
  let (file, bytes) := file.read numberOfBytesForHeaderChunk
  let buffer := buffer.copy 0 bytes
  let header := parseHeader (buffer.addressOf numberOfBytesOffsetForHeaderChunk)
  let numberOfBytesForBody := messageTypeToNumberOfBytes header.messageType
  let (file, bytes) := file.read numberOfBytesForBody
  let buffer := buffer.copy numberOfBytesForHeaderChunk bytes
  (file, buffer, getMessage (buffer.addressOf numberOfBytesForHeaderChunk) header)

theorem size_feedOnce_lt {file : Istream} (h : file.failed = false) (buffer : Chars) :
    (feedOnce file buffer).1.size < file.size :=
  Nat.lt_of_le_of_lt (Istream.size_read_le _ _) (Istream.size_read_lt h (by decide))

/-- What `getMessage` returns round after round, until the stream has failed. -/
def feed (file : Istream) (buffer : Chars) : List (Option Message) :=
  if _h : file.failed = true then []
  else
    (feedOnce file buffer).2.2 :: feed (feedOnce file buffer).1 (feedOnce file buffer).2.1
termination_by file.size
decreasing_by exact size_feedOnce_lt (Bool.eq_false_of_not_eq_true _h) buffer

/-- The messages that the producer pushes. The buffer starts with zeros. -/
def pushedFrom (bytes : Bytes) : List Message := (feed ⟨bytes, false⟩ fun _ => 0).reduceOption

theorem body_fits (messageType : UInt8) :
    numberOfBytesForHeaderChunk + messageTypeToNumberOfBytes messageType ≤ bufferSize := by
  unfold messageTypeToNumberOfBytes
  rcases MessageType.ofChar messageType with _ | t
  · decide
  · cases t <;> decide

/-! ## Files -/

/-- A complete frame. A type outside the 23 has an empty body. -/
structure Frame where
  ignored : Bytes
  header : Bytes
  body : Bytes
  ignored_length : ignored.length = numberOfBytesOffsetForHeaderChunk
  header_length : header.length = messageHeaderSize
  body_length : body.length = messageTypeToNumberOfBytes (Chars.ofList header 0)

namespace Frame

def messageType (f : Frame) : UInt8 := Chars.ofList f.header 0

def bytes (f : Frame) : Bytes := f.ignored ++ f.header ++ f.body

/-- The message in the frame, if its type is one that is parsed. -/
def decode (f : Frame) : Option Message :=
  getMessage (Chars.ofList f.body) (parseHeader (Chars.ofList f.header))

end Frame

/-- A file of complete frames, and a proper prefix of one more. -/
structure ItchFile where
  frames : List Frame
  next : Frame
  tail : Bytes
  isPrefix : tail <+: next.bytes
  proper : tail ≠ next.bytes

namespace ItchFile

def bytes (file : ItchFile) : Bytes := file.frames.flatMap Frame.bytes ++ file.tail

/-- The type byte in the buffer when the loop runs for the last time: the third byte of the
trailing prefix, if it is that long, else that of the last complete frame, else a zero. -/
def lastType (file : ItchFile) : UInt8 :=
  file.tail[2]?.getD ((file.frames.getLast?.map Frame.messageType).getD 0)

end ItchFile

/-! ## Round by round -/

section Rounds

variable {buffer : Chars} {rest : Bytes}

theorem parseHeader_copy (buffer : Chars) (f : Frame) :
    parseHeader ((buffer.copy 0 (f.ignored ++ f.header)).addressOf
      numberOfBytesOffsetForHeaderChunk) = parseHeader (Chars.ofList f.header) := by
  apply parseHeader_congr
  intro i hi
  have hlt : f.ignored.length + i < (f.ignored ++ f.header).length := by
    rw [List.length_append, f.header_length]
    exact Nat.add_lt_add_left hi _
  have hcopy : buffer.copy 0 _ (0 + (f.ignored.length + i)) = _ := Chars.copy_offset_add hlt
  rw [Nat.zero_add, Chars.ofList_append_add, f.ignored_length] at hcopy
  exact hcopy

/-- The buffer holds the header and the body of a frame. -/
structure Holds (buffer : Chars) (f : Frame) : Prop where
  header : parseHeader (buffer.addressOf numberOfBytesOffsetForHeaderChunk) =
    parseHeader (Chars.ofList f.header)
  body : ∀ i < f.body.length,
    buffer (numberOfBytesForHeaderChunk + i) = Chars.ofList f.body i

theorem Holds.messageType {f : Frame} (h : Holds buffer f) :
    buffer numberOfBytesOffsetForHeaderChunk = f.messageType :=
  congrArg BinaryMessageHeader.messageType h.header

theorem Holds.getMessage {f : Frame} (h : Holds buffer f) :
    NasdaqItch.getMessage (buffer.addressOf numberOfBytesForHeaderChunk)
      (parseHeader (buffer.addressOf numberOfBytesOffsetForHeaderChunk)) = f.decode := by
  rw [h.header]
  apply getMessage_congr
  intro i hi
  exact h.body i (f.body_length ▸ hi)

theorem holds_copy (buffer : Chars) (f : Frame) :
    Holds ((buffer.copy 0 (f.ignored ++ f.header)).copy numberOfBytesForHeaderChunk f.body) f := by
  refine ⟨?_, fun i hi => Chars.copy_offset_add hi⟩
  rw [← parseHeader_copy buffer f]
  apply parseHeader_congr
  intro i hi
  exact Chars.copy_of_lt (Nat.add_lt_add_left hi _)

/-- **A complete frame** is read and decoded, and stays in the buffer. -/
theorem feedOnce_frame (f : Frame) (rest : Bytes) (buffer : Chars) :
    ∃ buffer', feedOnce ⟨f.bytes ++ rest, false⟩ buffer = (⟨rest, false⟩, buffer', f.decode) ∧
      Holds buffer' f := by
  have hholds := holds_copy buffer f
  have hchunk : (f.ignored ++ f.header).length = numberOfBytesForHeaderChunk := by
    rw [List.length_append, f.ignored_length, f.header_length]
    rfl
  have hbody : f.body.length = messageTypeToNumberOfBytes (parseHeader
      ((buffer.copy 0 (f.ignored ++ f.header)).addressOf
        numberOfBytesOffsetForHeaderChunk)).messageType := by
    rw [parseHeader_copy]
    exact f.body_length
  refine ⟨_, ?_, hholds⟩
  unfold feedOnce
  rw [Frame.bytes, List.append_assoc, Istream.read_append hchunk]
  simp only [Istream.read_append hbody]
  rw [← hholds.getMessage, hholds.header, parseHeader_copy]

/-- With nothing left, the frame in the buffer is parsed again. -/
theorem feedOnce_empty {f : Frame} (h : Holds buffer f) :
    feedOnce ⟨[], false⟩ buffer = (⟨[], true⟩, buffer, f.decode) := by
  have hshort : (⟨[], false⟩ : Istream).read numberOfBytesForHeaderChunk = (⟨[], true⟩, []) :=
    Istream.read_short (by decide)
  unfold feedOnce
  rw [hshort]
  simp only [Istream.read_failed, Chars.copy_nil]
  rw [h.getMessage]

theorem length_bytes (f : Frame) :
    f.bytes.length = numberOfBytesForHeaderChunk + messageTypeToNumberOfBytes f.messageType := by
  unfold Frame.bytes
  rw [List.length_append, List.length_append, f.ignored_length, f.header_length, f.body_length]
  rfl

theorem bytes_offset (f : Frame) :
    f.bytes[numberOfBytesOffsetForHeaderChunk]? = some f.messageType := by
  have hpos : 0 < f.header.length := by
    rw [f.header_length]
    decide
  rw [Frame.bytes, List.append_assoc, ← f.ignored_length,
    List.getElem?_append_right (Nat.le_refl _), Nat.sub_self, List.getElem?_append_left hpos,
    Frame.messageType, Chars.ofList, List.getElem?_eq_getElem hpos, Option.getD_some]

/-- **The last round**: both reads together run out of bytes, and the type byte in the buffer
decides whether a message comes out. -/
theorem feedOnce_tail (file : ItchFile) (buffer : Chars) :
    ∃ buffer' last, feedOnce ⟨file.tail, false⟩ buffer = (⟨[], true⟩, buffer', last) ∧
      last.isSome = isParsed
        (file.tail[numberOfBytesOffsetForHeaderChunk]?.getD
          (buffer numberOfBytesOffsetForHeaderChunk)) := by
  have hlt : file.tail.length < file.next.bytes.length :=
    lt_of_le_of_ne file.isPrefix.length_le fun h => file.proper (file.isPrefix.eq_of_length h)
  rw [length_bytes] at hlt
  by_cases hshort : file.tail.length < numberOfBytesForHeaderChunk
  · -- The header is cut off: the second read copies nothing.
    unfold feedOnce
    rw [Istream.read_short hshort]
    simp only [Istream.read_failed]
    exact ⟨_, _, rfl, isSome_getMessage _ _⟩
  · -- The header is that of the next frame, and its body is cut off.
    have htype : file.tail[numberOfBytesOffsetForHeaderChunk]? = some file.next.messageType := by
      obtain ⟨missing, hmissing⟩ := file.isPrefix
      have hoffset := bytes_offset file.next
      have hoffset_lt : numberOfBytesOffsetForHeaderChunk < file.tail.length :=
        Nat.lt_of_lt_of_le (by decide) (Nat.not_lt.1 hshort)
      rwa [← hmissing, List.getElem?_append_left hoffset_lt] at hoffset
    have hchunk : (file.tail.take numberOfBytesForHeaderChunk).length =
        numberOfBytesForHeaderChunk := by
      rw [List.length_take]
      omega
    have hbody : (file.tail.drop numberOfBytesForHeaderChunk).length <
        messageTypeToNumberOfBytes file.next.messageType := by
      rw [List.length_drop]
      omega
    have hheader : (parseHeader
        ((buffer.copy 0 (file.tail.take numberOfBytesForHeaderChunk)).addressOf
          numberOfBytesOffsetForHeaderChunk)).messageType = file.next.messageType := by
      show buffer.copy 0 _ numberOfBytesOffsetForHeaderChunk = _
      rw [Chars.copy_zero, List.getElem?_take_of_lt (by decide), htype, Option.getD_some]
    rw [htype, Option.getD_some]
    unfold feedOnce
    rw [← List.take_append_drop numberOfBytesForHeaderChunk file.tail, Istream.read_append hchunk]
    simp only [hheader, Istream.read_short hbody]
    refine ⟨_, _, rfl, ?_⟩
    rw [isSome_getMessage, hheader]

theorem feed_failed (buffer : Chars) : feed ⟨[], true⟩ buffer = [] := by
  rw [feed, dif_pos rfl]

theorem feed_good {file' : Istream} {buffer' : Chars} {result : Option Message}
    (h : feedOnce ⟨rest, false⟩ buffer = (file', buffer', result)) :
    feed ⟨rest, false⟩ buffer = result :: feed file' buffer' := by
  rw [feed, dif_neg Bool.false_ne_true, h]

/-- **Complete frames** are decoded one after the other, and the last one stays in the buffer. -/
theorem feed_frames (frames : List Frame) (rest : Bytes) (buffer : Chars) :
    ∃ buffer', feed ⟨frames.flatMap Frame.bytes ++ rest, false⟩ buffer =
        frames.map Frame.decode ++ feed ⟨rest, false⟩ buffer' ∧
      (∀ f ∈ frames.getLast?, Holds buffer' f) ∧ (frames = [] → buffer' = buffer) := by
  induction frames generalizing buffer with
  | nil => exact ⟨buffer, rfl, nofun, fun _ => rfl⟩
  | cons f frames ih =>
      obtain ⟨buffer₁, hframe, hholds⟩ :=
        feedOnce_frame f (frames.flatMap Frame.bytes ++ rest) buffer
      obtain ⟨buffer', hfeed, hlast, hnil⟩ := ih buffer₁
      refine ⟨buffer', ?_, ?_, nofun⟩
      · rw [List.flatMap_cons, List.append_assoc, feed_good hframe, hfeed]
        rfl
      · intro g hg
        cases frames with
        | nil =>
            cases hg
            exact hnil rfl ▸ hholds
        | cons f' frames => exact hlast g (List.getLast?_cons_cons ▸ hg)

end Rounds

/-- The messages of all complete frames, and what the last round adds. -/
theorem pushedFrom_file (file : ItchFile) :
    ∃ last : Option Message, last.isSome = isParsed file.lastType ∧
      pushedFrom file.bytes = file.frames.filterMap Frame.decode ++ last.toList := by
  obtain ⟨buffer', hfeed, hlast, hnil⟩ := feed_frames file.frames file.tail fun _ => 0
  obtain ⟨buffer'', last, htail, hparsed⟩ := feedOnce_tail file buffer'
  have htype : buffer' numberOfBytesOffsetForHeaderChunk =
      (file.frames.getLast?.map Frame.messageType).getD 0 := by
    cases hframes : file.frames.getLast? with
    | none =>
        rw [hnil (List.getLast?_eq_none_iff.1 hframes)]
        rfl
    | some f => exact (hlast f hframes).messageType
  refine ⟨last, by rw [hparsed, htype]; rfl, ?_⟩
  rw [pushedFrom, ItchFile.bytes, hfeed, feed_good htail, feed_failed]
  cases last <;> simp [List.reduceOption, List.filterMap_map]

/-! ## When every message is pushed once -/

/-- **Every complete frame once, and nothing else**: exactly when the type byte that the last round
finds is not one that is parsed. -/
theorem frames_delivered_iff (file : ItchFile) :
    pushedFrom file.bytes = file.frames.filterMap Frame.decode ↔
      isParsed file.lastType = false := by
  obtain ⟨last, hlast, hpushed⟩ := pushedFrom_file file
  rw [hpushed, ← hlast]
  constructor
  · intro h
    have hnil := List.append_right_eq_self.1 h
    rw [Option.toList_eq_nil_iff] at hnil
    rw [hnil]
    rfl
  · intro h
    rw [Option.not_isSome_iff_eq_none.1 (Bool.eq_false_iff.1 h)]
    exact List.append_nil _

/-- **The last frame is pushed twice.** Where the file ends with a complete frame, the last round
parses this frame again. -/
theorem last_frame_pushed_twice (frames : List Frame) (f : Frame) :
    pushedFrom ((frames ++ [f]).flatMap Frame.bytes) =
      frames.filterMap Frame.decode ++ f.decode.toList ++ f.decode.toList := by
  obtain ⟨buffer', hfeed, hlast, -⟩ := feed_frames (frames ++ [f]) [] fun _ => 0
  rw [List.append_nil] at hfeed
  have hholds : Holds buffer' f := hlast f (by simp)
  rw [pushedFrom, hfeed, feed_good (feedOnce_empty hholds), feed_failed]
  cases hdecode : f.decode <;> simp [List.reduceOption, List.filterMap_map, hdecode]

/-- A frame with a stock trading action of issue 1 at 9:00, state `'T'`. -/
def openingFrame : Frame where
  ignored := [0, 25]
  header := ['H'.toUInt8, 0, 1, 0, 0, 29, 119, 182, 125, 160, 0]
  body := [65, 32, 32, 32, 32, 32, 32, 32, 'T'.toUInt8, 32, 32, 32, 32, 32]
  ignored_length := rfl
  header_length := rfl
  body_length := rfl

/-- A file with this frame and nothing behind it. -/
def oneFrameFile : ItchFile := ⟨[openingFrame], openingFrame, [], List.nil_prefix, nofun⟩

/-- The message of the only frame comes twice. -/
theorem frame_pushed_twice :
    oneFrameFile.frames.filterMap Frame.decode = [startsTrading 1 (clock 9 0)] ∧
      pushedFrom oneFrameFile.bytes =
        [startsTrading 1 (clock 9 0), startsTrading 1 (clock 9 0)] := by
  have hdecode : openingFrame.decode = some (startsTrading 1 (clock 9 0)) := by decide
  refine ⟨by rw [oneFrameFile, List.filterMap_cons_some hdecode, List.filterMap_nil], ?_⟩
  have htwice := last_frame_pushed_twice [] openingFrame
  rw [hdecode] at htwice
  rw [ItchFile.bytes, oneFrameFile, List.append_nil]
  exact htwice

end NasdaqItch
