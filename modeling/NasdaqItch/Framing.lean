import NasdaqItch.FileFeed
import NasdaqItch.Lib.PrefixCode

/-!
# Any file at all

What the producer's loop does with an arbitrary file. A complete frame says how long it is, so no
frame starts with another one, and any bytes at all are in one way only complete frames and a
proper prefix of one more. The loop finds just these frames, one a round, and then runs once more
(`feed_any_file`). That last round parses what is in the buffer then: the rest, over the last
frame, over the frames before it (`overlay`).

Whatever the file is, the loop stays within the first 52 bytes of its buffer: the two bytes that
are ignored, and the 50 of the largest message (`buffer_suffices_iff`).
-/

namespace NasdaqItch

open PrefixCode

/-! ## A round, whatever is left -/

/-- What a round parses, once it has read. -/
def parseBuffer (buffer : Chars) : Option Message :=
  getMessage (buffer.addressOf numberOfBytesForHeaderChunk)
    (parseHeader (buffer.addressOf numberOfBytesOffsetForHeaderChunk))

/-- The buffer after these chunks were read into it, one after the other, each from its start. -/
def overlay (chunks : List Bytes) : Chars :=
  chunks.foldl (fun buffer bytes => buffer.copy 0 bytes) fun _ => 0

/-- The bytes that a round asks for when the buffer has this type byte. -/
def chunkSize (messageType : UInt8) : Nat :=
  numberOfBytesForHeaderChunk + messageTypeToNumberOfBytes messageType

section Round

variable {rest header body : Bytes} {buffer : Chars}

theorem copy_body (hheader : header.length = numberOfBytesForHeaderChunk) :
    (buffer.copy 0 header).copy numberOfBytesForHeaderChunk body =
      buffer.copy 0 (header ++ body) :=
  hheader ▸ Chars.copy_copy buffer header body

theorem parseHeader_copy_body (hheader : header.length = numberOfBytesForHeaderChunk) :
    parseHeader ((buffer.copy 0 header).addressOf numberOfBytesOffsetForHeaderChunk) =
      parseHeader ((buffer.copy 0 (header ++ body)).addressOf
        numberOfBytesOffsetForHeaderChunk) := by
  apply parseHeader_congr
  intro i hi
  have hlt : numberOfBytesOffsetForHeaderChunk + i < numberOfBytesForHeaderChunk :=
    Nat.add_lt_add_left hi _
  rw [← copy_body hheader, Chars.addressOf, Chars.addressOf, Chars.copy_of_lt hlt]

/-- **Enough is left**: the round reads the header and the body it announces. -/
theorem feedOnce_enough (hheader : header.length = numberOfBytesForHeaderChunk)
    (hbody : body.length = messageTypeToNumberOfBytes
      (buffer.copy 0 header numberOfBytesOffsetForHeaderChunk)) :
    feedOnce ⟨header ++ body ++ rest, false⟩ buffer =
      (⟨rest, false⟩, buffer.copy 0 (header ++ body),
        parseBuffer (buffer.copy 0 (header ++ body))) := by
  unfold feedOnce
  rw [List.append_assoc, Istream.read_append hheader]
  simp only
  rw [Istream.read_append (by rw [hbody]; rfl)]
  simp only
  rw [copy_body hheader, parseHeader_copy_body hheader, parseBuffer]

/-- **Not enough is left**: the round copies what there is and parses all the same. -/
theorem feedOnce_short
    (h : rest.length < chunkSize (buffer.copy 0 rest numberOfBytesOffsetForHeaderChunk)) :
    feedOnce ⟨rest, false⟩ buffer =
      (⟨[], true⟩, buffer.copy 0 rest, parseBuffer (buffer.copy 0 rest)) := by
  by_cases hshort : rest.length < numberOfBytesForHeaderChunk
  · unfold feedOnce
    rw [Istream.read_short hshort]
    simp only [Istream.read_failed, Chars.copy_nil]
    rfl
  · obtain ⟨header, body, rfl, hheader⟩ :
        ∃ header body, rest = header ++ body ∧ header.length = numberOfBytesForHeaderChunk :=
      ⟨_, _, (List.take_append_drop numberOfBytesForHeaderChunk rest).symm,
        List.length_take_of_le (Nat.not_lt.1 hshort)⟩
    have hbody : body.length < messageTypeToNumberOfBytes
        (parseHeader ((buffer.copy 0 header).addressOf
          numberOfBytesOffsetForHeaderChunk)).messageType := by
      rw [parseHeader_copy_body hheader]
      rw [List.length_append, hheader] at h
      exact Nat.lt_of_add_lt_add_left h
    unfold feedOnce
    rw [Istream.read_append hheader]
    simp only
    rw [Istream.read_short hbody]
    simp only
    rw [copy_body hheader, parseHeader_copy_body hheader, parseBuffer]

end Round

/-! ## Frames are a prefix code -/

section Frames

variable {f g : Frame} {bytes rest : Bytes} {c : UInt8}

theorem Frame.bytes_ne_nil (f : Frame) : f.bytes ≠ [] := by
  intro hnil
  have hoffset := bytes_offset f
  rw [hnil, List.getElem?_nil] at hoffset
  exact absurd hoffset nofun

theorem bytes_offset_of_prefix (h : f.bytes <+: bytes) :
    bytes[numberOfBytesOffsetForHeaderChunk]? = some f.messageType := by
  obtain ⟨rest, rfl⟩ := h
  have hlt : numberOfBytesOffsetForHeaderChunk < f.bytes.length := by
    rw [length_bytes]
    exact Nat.lt_add_right _ (by decide)
  rw [List.getElem?_append_left hlt, bytes_offset]

theorem Frame.bytes_injective (h : f.bytes = g.bytes) : f = g := by
  obtain ⟨ignored, header, body, hignored, hheader, hbody⟩ := f
  obtain ⟨ignored', header', body', hignored', hheader', hbody'⟩ := g
  obtain ⟨hfront, rfl⟩ := List.append_inj h (by
    rw [List.length_append, List.length_append, hignored, hheader, hignored', hheader'])
  obtain ⟨rfl, rfl⟩ := List.append_inj hfront (hignored.trans hignored'.symm)
  rfl

theorem prefixFree_frames : PrefixFree Frame.bytes := by
  intro f g h
  have htype : f.messageType = g.messageType := by
    have hoffset := bytes_offset_of_prefix h
    rw [bytes_offset] at hoffset
    exact (Option.some.inj hoffset).symm
  have hlength : f.bytes.length = g.bytes.length := by
    rw [length_bytes, length_bytes, htype]
  exact Frame.bytes_injective (h.eq_of_length hlength)

theorem exists_frame_prefix
    (h : chunkSize (bytes[numberOfBytesOffsetForHeaderChunk]?.getD c) ≤ bytes.length) :
    ∃ f : Frame, f.bytes <+: bytes := by
  have hchunk : numberOfBytesForHeaderChunk =
      numberOfBytesOffsetForHeaderChunk + messageHeaderSize := rfl
  rw [chunkSize, hchunk] at h
  obtain ⟨ignored, rest, rfl, hignored⟩ : ∃ ignored rest, bytes = ignored ++ rest ∧
      ignored.length = numberOfBytesOffsetForHeaderChunk :=
    ⟨_, _, (List.take_append_drop numberOfBytesOffsetForHeaderChunk bytes).symm,
      List.length_take_of_le (by omega)⟩
  rw [← hignored, List.getElem?_append_right le_rfl, Nat.sub_self, List.length_append,
    hignored] at h
  obtain ⟨header, rest, rfl, hheader⟩ : ∃ header rest', rest = header ++ rest' ∧
      header.length = messageHeaderSize :=
    ⟨_, _, (List.take_append_drop messageHeaderSize rest).symm,
      List.length_take_of_le (by omega)⟩
  have hpos : 0 < header.length := by
    rw [hheader]
    decide
  have htype : (header ++ rest)[0]?.getD c = Chars.ofList header 0 := by
    rw [List.getElem?_append_left hpos, Chars.ofList, List.getElem?_eq_getElem hpos,
      Option.getD_some, Option.getD_some]
  rw [htype, List.length_append, hheader] at h
  refine ⟨⟨ignored, header, rest.take (messageTypeToNumberOfBytes (Chars.ofList header 0)),
    hignored, hheader, List.length_take_of_le (by omega)⟩, ?_⟩
  rw [Frame.bytes, List.append_assoc, List.prefix_append_right_inj, List.prefix_append_right_inj]
  exact List.take_prefix _ _

theorem lt_chunkSize (h : ∀ f : Frame, ¬ f.bytes <+: rest) (buffer : Chars) :
    rest.length < chunkSize (buffer.copy 0 rest numberOfBytesOffsetForHeaderChunk) := by
  by_contra hle
  rw [Chars.copy_zero] at hle
  obtain ⟨f, hf⟩ := exists_frame_prefix (Nat.not_lt.1 hle)
  exact h f hf

/-- A rest into which no frame fits is a proper prefix of a frame: some zeros complete it. -/
theorem exists_next (h : ∀ f : Frame, ¬ f.bytes <+: rest) :
    ∃ next : Frame, rest <+: next.bytes ∧ rest ≠ next.bytes := by
  have hlong : chunkSize ((rest ++ List.replicate bufferSize 0)[
      numberOfBytesOffsetForHeaderChunk]?.getD 0) ≤
        (rest ++ List.replicate bufferSize 0).length := by
    rw [List.length_append, List.length_replicate]
    exact le_trans (body_fits _) (Nat.le_add_left _ _)
  obtain ⟨next, hnext⟩ := exists_frame_prefix hlong
  refine ⟨next, ?_, fun heq => h next (heq ▸ List.prefix_rfl)⟩
  exact (List.prefix_or_prefix_of_prefix hnext (List.prefix_append _ _)).resolve_left (h next)

end Frames

/-- The frames of a file and its tail are the only way to read it. -/
theorem ItchFile.parses (file : ItchFile) :
    Parses Frame.bytes file.bytes file.frames file.tail where
  eq := rfl
  incomplete := by
    intro f hf
    obtain rfl := prefixFree_frames f file.next (hf.trans file.isPrefix)
    exact file.proper (file.isPrefix.eq_of_length
      (le_antisymm file.isPrefix.length_le hf.length_le))

/-! ## All rounds -/

/-- **Complete frames**, one a round. -/
theorem feed_append_frames (frames : List Frame) (rest : Bytes) (buffer : Chars) :
    feed ⟨frames.flatMap Frame.bytes ++ rest, false⟩ buffer = frames.map Frame.decode ++
      feed ⟨rest, false⟩
        ((frames.map Frame.bytes).foldl (fun buffer bytes => buffer.copy 0 bytes) buffer) := by
  induction frames generalizing buffer with
  | nil => rfl
  | cons f frames ih =>
      have hheader : (f.ignored ++ f.header).length = numberOfBytesForHeaderChunk := by
        rw [List.length_append, f.ignored_length, f.header_length]
        rfl
      have htype := congrArg BinaryMessageHeader.messageType (parseHeader_copy buffer f)
      have hround : feedOnce ⟨f.ignored ++ f.header ++ f.body ++
            (frames.flatMap Frame.bytes ++ rest), false⟩ buffer =
          (⟨frames.flatMap Frame.bytes ++ rest, false⟩, buffer.copy 0 f.bytes,
            parseBuffer (buffer.copy 0 f.bytes)) :=
        feedOnce_enough hheader (f.body_length.trans (congrArg _ htype.symm))
      have hdecode : parseBuffer (buffer.copy 0 f.bytes) = f.decode := by
        have hholds := holds_copy buffer f
        rw [copy_body hheader] at hholds
        exact hholds.getMessage
      rw [List.flatMap_cons, List.append_assoc, Frame.bytes, feed_good hround, ih]
      show parseBuffer (buffer.copy 0 f.bytes) :: _ = _
      rw [hdecode]
      rfl

/-- **Any file at all.** Its bytes are in one way only complete frames and a proper prefix of one
more. The loop runs once for each frame, whose message it decodes, and once more, when it parses
the rest over what the frames have left in the buffer. -/
theorem feed_any_file (bytes : Bytes) :
    ∃ file : ItchFile, file.bytes = bytes ∧
      (∀ file' : ItchFile, file'.bytes = bytes →
        file'.frames = file.frames ∧ file'.tail = file.tail) ∧
      feed ⟨bytes, false⟩ (fun _ => 0) = file.frames.map Frame.decode ++
        [parseBuffer (overlay (file.frames.map Frame.bytes ++ [file.tail]))] := by
  obtain ⟨frames, tail, hparses⟩ := exists_parses Frame.bytes_ne_nil bytes
  obtain ⟨next, hnext, hproper⟩ := exists_next hparses.incomplete
  refine ⟨⟨frames, next, tail, hnext, hproper⟩, hparses.eq.symm, ?_, ?_⟩
  · rintro file' rfl
    exact file'.parses.unique prefixFree_frames hparses
  · have hlast := feedOnce_short (lt_chunkSize hparses.incomplete
      ((frames.map Frame.bytes).foldl (fun buffer bytes => buffer.copy 0 bytes) fun _ => 0))
    rw [hparses.eq, feed_append_frames, feed_good hlast, feed_failed, overlay, List.foldl_concat]

/-! ## The buffer -/

/-- The bytes that a round may use. -/
abbrev largestChunk : Nat := 52

/-- The stream and the buffer after some rounds. -/
def afterRounds : Nat → Istream → Chars → Istream × Chars
  | 0, file, buffer => (file, buffer)
  | rounds + 1, file, buffer =>
      afterRounds rounds (feedOnce file buffer).1 (feedOnce file buffer).2.1

theorem chunkSize_le (messageType : UInt8) : chunkSize messageType ≤ largestChunk := by
  unfold chunkSize messageTypeToNumberOfBytes
  rcases MessageType.ofChar messageType with _ | t
  · decide
  · cases t <;> decide

section Buffer

variable {file : Istream} {buffer buffer' : Chars} {size i : Nat}

theorem feedOnce_eq (file : Istream) (buffer : Chars) :
    let header := file.read numberOfBytesForHeaderChunk
    let copied := buffer.copy 0 header.2
    let body := header.1.read
      (messageTypeToNumberOfBytes (copied numberOfBytesOffsetForHeaderChunk))
    feedOnce file buffer = (body.1, copied.copy numberOfBytesForHeaderChunk body.2,
      getMessage ((copied.copy numberOfBytesForHeaderChunk body.2).addressOf
        numberOfBytesForHeaderChunk)
        (parseHeader (copied.addressOf numberOfBytesOffsetForHeaderChunk))) := rfl

theorem feedOnce_of_ge (file : Istream) (buffer : Chars) (h : largestChunk ≤ i) :
    (feedOnce file buffer).2.1 i = buffer i := by
  have hheader := Istream.length_read_le file numberOfBytesForHeaderChunk
  have hsmall : numberOfBytesForHeaderChunk ≤ largestChunk := by decide
  rw [feedOnce_eq]
  dsimp only
  rw [Chars.copy_of_ge, Chars.copy_of_ge]
  · omega
  · exact (Nat.add_le_add_left (Istream.length_read_le _ _) _).trans ((chunkSize_le _).trans h)

theorem feedOnce_congr (file : Istream) (hsize : largestChunk ≤ size)
    (h : ∀ i < size, buffer' i = buffer i) :
    (feedOnce file buffer').1 = (feedOnce file buffer).1 ∧
      (∀ i < size, (feedOnce file buffer').2.1 i = (feedOnce file buffer).2.1 i) ∧
      (feedOnce file buffer').2.2 = (feedOnce file buffer).2.2 := by
  have hcopied : ∀ i < size, buffer'.copy 0 (file.read numberOfBytesForHeaderChunk).2 i =
      buffer.copy 0 (file.read numberOfBytesForHeaderChunk).2 i := fun i hi =>
    Chars.copy_congr (h i hi)
  have hsmall : numberOfBytesForHeaderChunk ≤ size := Nat.le_trans (by decide) hsize
  have htype := hcopied numberOfBytesOffsetForHeaderChunk (Nat.lt_of_lt_of_le (by decide) hsmall)
  rw [feedOnce_eq, feedOnce_eq]
  dsimp only
  rw [htype]
  refine ⟨rfl, fun i hi => Chars.copy_congr (hcopied i hi), ?_⟩
  have hheader : parseHeader ((buffer'.copy 0 (file.read numberOfBytesForHeaderChunk).2).addressOf
        numberOfBytesOffsetForHeaderChunk) =
      parseHeader ((buffer.copy 0 (file.read numberOfBytesForHeaderChunk).2).addressOf
        numberOfBytesOffsetForHeaderChunk) := by
    apply parseHeader_congr
    intro i hi
    exact hcopied _ (Nat.lt_of_lt_of_le (Nat.add_lt_add_left hi _) hsmall)
  rw [hheader]
  apply getMessage_congr
  intro i hi
  have hchunk : numberOfBytesForHeaderChunk + i < largestChunk :=
    Nat.lt_of_lt_of_le (Nat.add_lt_add_left hi _) (chunkSize_le _)
  exact Chars.copy_congr (hcopied _ (Nat.lt_of_lt_of_le hchunk hsize))

theorem afterRounds_of_ge (rounds : Nat) (file : Istream) (buffer : Chars) (h : largestChunk ≤ i) :
    (afterRounds rounds file buffer).2 i = buffer i := by
  induction rounds generalizing file buffer with
  | zero => rfl
  | succ rounds ih => exact (ih _ _).trans (feedOnce_of_ge file buffer h)

theorem feed_congr (hsize : largestChunk ≤ size) (h : ∀ i < size, buffer' i = buffer i) :
    feed file buffer' = feed file buffer := by
  induction file, buffer using feed.induct generalizing buffer' with
  | case1 file buffer hfailed => rw [feed, dif_pos hfailed, feed, dif_pos hfailed]
  | case2 file buffer hgood ih =>
      obtain ⟨hfile, hbuffer, hresult⟩ := feedOnce_congr file hsize h
      have hround : ∀ buffer, feed file buffer = (feedOnce file buffer).2.2 ::
          feed (feedOnce file buffer).1 (feedOnce file buffer).2.1 := fun buffer => by
        rw [feed, dif_neg hgood]
      rw [hround buffer', hround buffer, hfile, hresult, ih hbuffer]

end Buffer

/-- A frame of the largest type, with a last byte that is not zero. -/
def largestFrame : Frame where
  ignored := [0, 50]
  header := ['I'.toUInt8, 0, 1, 0, 0, 29, 119, 182, 125, 160, 0]
  body := List.replicate 38 32 ++ [1]
  ignored_length := rfl
  header_length := rfl
  body_length := rfl

/-- **How large the buffer has to be.** A buffer is large enough for every file, so that the loop
writes nothing behind it and its messages do not depend on what is there, exactly from 52 bytes
on. -/
theorem buffer_suffices_iff (size : Nat) :
    (∀ file buffer,
      (∀ rounds i, size ≤ i → (afterRounds rounds file buffer).2 i = buffer i) ∧
        ∀ buffer', (∀ i < size, buffer' i = buffer i) → feed file buffer' = feed file buffer) ↔
      largestChunk ≤ size := by
  constructor
  · intro h
    by_contra hsmall
    have hbehind : size ≤ 51 := Nat.le_of_lt_succ (Nat.not_le.1 hsmall)
    have hkeeps := (h ⟨largestFrame.bytes, false⟩ fun _ => 0).1 1 51 hbehind
    exact absurd hkeeps (by decide)
  · intro hsize file buffer
    exact ⟨fun rounds i hi => afterRounds_of_ge rounds file buffer (hsize.trans hi),
      fun buffer' h => feed_congr hsize h⟩

end NasdaqItch
