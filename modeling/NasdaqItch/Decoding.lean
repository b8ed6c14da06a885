import NasdaqItch.Encoding
import NasdaqItch.FileFeed

/-!
# What the parsers accept

The other direction of the encoding. A frame from which a message comes out is an encoding of this
message: every byte of header and body is told by the message, up to the two ignored bytes, the
tracking number, and where the padding stands in a string (`Frame.decode_eq_some_iff`). The
messages that can come out are those with the type of their body, a timestamp of 48 bits, and
strings that fit into their fields and have nothing to strip (`decode_inverts_encoding`).
-/

namespace NasdaqItch

open BigEndian

/-! ## Fields -/

/-- The bytes that a parser may have found this field in. -/
def Field.IsEncoding (bytes : Bytes) : Field → Prop
  | .number size value => bytes = BigEndian.encode size value
  | .char c => bytes = [c]
  | .text size str => bytes.length = size ∧ stripWhitespaceFromCPPString bytes = str

/-- One field behind the other, and nothing else. -/
def AreEncodings : Bytes → List Field → Prop
  | bytes, [] => bytes = []
  | bytes, field :: fields =>
      ∃ front back, bytes = front ++ back ∧ field.IsEncoding front ∧ AreEncodings back fields

section Fields

variable {data : Chars} {offset size : Nat} {bytes : Bytes} {field : Field} {fields : List Field}

theorem length_charStarToString : (charStarToString data size).length = size := by
  rw [charStarToString, List.length_map, List.length_range]

theorem charStarToString_add {n : Nat} : charStarToString (data.addressOf offset) (size + n) =
    charStarToString (data.addressOf offset) size ++
      charStarToString (data.addressOf (offset + size)) n := by
  unfold charStarToString
  rw [List.range_add, List.map_append, List.map_map]
  congr 1
  apply List.map_congr_left
  intro i _
  exact congrArg data (Nat.add_assoc offset size i).symm

theorem charStarToString_ofList (bytes : Bytes) :
    charStarToString ((Chars.ofList bytes).addressOf 0) bytes.length = bytes := by
  refine HoldsAt.map_range (fun i hi => ?_) rfl
  rw [Nat.zero_add, Chars.ofList, List.getElem?_eq_getElem hi, Option.getD_some]

theorem Field.IsEncoding.length_eq (h : field.IsEncoding bytes) : bytes.length = field.size := by
  cases field with
  | number size value =>
      rw [show bytes = _ from h]
      exact BigEndian.length_encode size value
  | char c =>
      rw [show bytes = _ from h]
      rfl
  | text size str => exact h.1

theorem AreEncodings.length_eq (h : AreEncodings bytes fields) :
    bytes.length = (fields.map Field.size).sum := by
  induction fields generalizing bytes with
  | nil =>
      rw [show bytes = [] from h]
      rfl
  | cons field fields ih =>
      obtain ⟨front, back, rfl, hfront, hback⟩ := h
      rw [List.length_append, hfront.length_eq, ih hback, List.map_cons, List.sum_cons]

theorem isEncoding_iff_reads (hsize : field.size ≤ 8) :
    field.IsEncoding (charStarToString (data.addressOf offset) field.size) ↔
      field.Reads data offset := by
  cases field with
  | number size value =>
      have hvalue : (toHostEndianUpTo64 (data.addressOf offset) size).toNat =
          BigEndian.value (charStarToString (data.addressOf offset) size) :=
        toHostEndianUpTo64_eq_value hsize
      have hfits : value % 256 ^ size < 2 ^ 64 := by
        calc value % 256 ^ size < 256 ^ size := Nat.mod_lt _ (Nat.pow_pos (by decide))
          _ ≤ 256 ^ 8 := Nat.pow_le_pow_right (by decide) hsize
          _ = 2 ^ 64 := by decide
      show charStarToString _ size = _ ↔ toHostEndianUpTo64 _ size = _
      rw [eq_encode_iff length_charStarToString, ← hvalue, ← UInt64.toNat_inj, UInt64.toNat_ofNat',
        Nat.mod_eq_of_lt hfits]
  | char c =>
      show [data (offset + 0)] = [c] ↔ data offset = c
      rw [List.singleton_inj, Nat.add_zero]
  | text size str => exact and_iff_right length_charStarToString

/-- **A walk over the fields** finds what the bytes encode. -/
theorem areEncodings_iff_reads (hsize : ∀ field ∈ fields, field.size ≤ 8) :
    AreEncodings (charStarToString (data.addressOf offset) (fields.map Field.size).sum) fields ↔
      ReadsFields data offset fields := by
  induction fields generalizing offset with
  | nil => exact iff_of_true rfl trivial
  | cons field fields ih =>
      have hrest : AreEncodings (charStarToString (data.addressOf (offset + field.size))
          (fields.map Field.size).sum) fields ↔ ReadsFields data (offset + field.size) fields :=
        ih fun f hf => hsize f (List.mem_cons_of_mem _ hf)
      have hfield : field.IsEncoding (charStarToString (data.addressOf offset) field.size) ↔
          field.Reads data offset := isEncoding_iff_reads (hsize field List.mem_cons_self)
      rw [List.map_cons, List.sum_cons, charStarToString_add, ReadsFields, ← hrest, ← hfield]
      constructor
      · rintro ⟨front, back, heq, hfront, hback⟩
        obtain ⟨rfl, rfl⟩ :=
          List.append_inj heq (length_charStarToString.trans hfront.length_eq.symm)
        exact ⟨hfront, hback⟩
      · rintro ⟨hfront, hback⟩
        exact ⟨_, _, rfl, hfront, hback⟩

theorem isEncoding_encode (h : field.TextFits) : field.IsEncoding field.encode := by
  cases field with
  | number size value => rfl
  | char c => rfl
  | text size str =>
      refine ⟨Field.length_encode h, ?_⟩
      show stripWhitespaceFromCPPString (str.rightpad size ' '.toUInt8) = str
      unfold stripWhitespaceFromCPPString List.rightpad
      rw [List.filter_append, List.filter_eq_self.2 fun c hc => by rw [h.2 c hc]; rfl,
        List.filter_replicate_of_neg (by decide), List.append_nil]

theorem areEncodings_encodeFields (h : ∀ field ∈ fields, field.TextFits) :
    AreEncodings (encodeFields fields) fields := by
  induction fields with
  | nil => rfl
  | cons field fields ih =>
      exact ⟨_, _, rfl, isEncoding_encode (h field List.mem_cons_self),
        ih fun f hf => h f (List.mem_cons_of_mem _ hf)⟩

theorem Field.IsEncoding.textFits (h : field.IsEncoding bytes) : field.TextFits := by
  cases field with
  | number | char => trivial
  | text size str =>
      obtain ⟨rfl, rfl⟩ := h
      refine ⟨List.length_filter_le _ _, fun c hc => ?_⟩
      simpa using (List.mem_filter.1 hc).2

theorem AreEncodings.textsFit (h : AreEncodings bytes fields) :
    ∀ field ∈ fields, field.TextFits := by
  induction fields generalizing bytes with
  | nil => exact nofun
  | cons field fields ih =>
      obtain ⟨front, back, -, hfront, hback⟩ := h
      intro f hf
      rcases List.mem_cons.1 hf with rfl | hf
      · exact hfront.textFits
      · exact ih hback f hf

end Fields

/-! ## The parsers, the other way round -/

section Parsers

variable {data : Chars} {header : BinaryMessageHeader} {m : Message} {size : Nat} {c : UInt8}

theorem toHostEndianUpTo64_lt (hsize : size ≤ 8) :
    (toHostEndianUpTo64 data size).toNat < 256 ^ size := by
  have hlt := value_lt (charStarToString data size)
  rw [length_charStarToString] at hlt
  rw [toHostEndianUpTo64_eq_value hsize]
  exact hlt

theorem read_word32 : UInt64.ofNat ((toHostEndianUpTo64 data 4).toUInt32.toNat % 256 ^ 4) =
    toHostEndianUpTo64 data 4 := by
  have hlt : (toHostEndianUpTo64 data 4).toNat < 2 ^ 32 := toHostEndianUpTo64_lt (by decide)
  rw [UInt64.toNat_toUInt32, Nat.mod_eq_of_lt hlt]
  exact (congrArg UInt64.ofNat (Nat.mod_eq_of_lt hlt)).trans UInt64.ofNat_toNat

theorem read_word16 : UInt64.ofNat ((toHostEndianUpTo64 data 2).toUInt16.toNat % 256 ^ 2) =
    toHostEndianUpTo64 data 2 := by
  have hlt : (toHostEndianUpTo64 data 2).toNat < 2 ^ 16 := toHostEndianUpTo64_lt (by decide)
  rw [UInt64.toNat_toUInt16, Nat.mod_eq_of_lt hlt]
  exact (congrArg UInt64.ofNat (Nat.mod_eq_of_lt hlt)).trans UInt64.ofNat_toNat

theorem MessageType.char_of_ofChar {t : MessageType} (h : ofChar c = some t) : c = t.char := by
  have hfound := List.find?_some h
  exact (of_decide_eq_true hfound).symm

/-- **What `getMessage` returns** has the type of the header, and its fields are where the table
says. -/
theorem getMessage_eq_some_iff : getMessage data header = some m ↔
    m.header = header ∧ header.messageType = m.body.messageType.char ∧
      ReadsFields data 0 m.body.fields := by
  constructor
  · intro h
    unfold getMessage at h
    cases ht : MessageType.ofChar header.messageType with
    | none =>
        rw [ht] at h
        exact absurd h nofun
    | some t =>
        have htype := MessageType.char_of_ofChar ht
        rw [ht] at h
        cases t <;> first
          | exact absurd h.symm (Option.some_ne_none m)
          | obtain rfl := Option.some.inj h
            refine ⟨rfl, htype, ?_⟩
            simp only [parseAddOrderBody, parseAddOrderMPIDBody,
              parseBrokenTradeOrOrderExecutionBody, parseCrossTradeBody, parseOrderCancelBody,
              parseOrderDeleteBody, parseOrderExecutedBody, parseOrderExecutedWithPriceBody,
              parseOrderReplaceBody, parseStockTradingActionBody, parseSystemEventBody,
              parseTradeNonCrossBody, Body.fields, ReadsFields, Field.Reads, Field.size,
              word64_read, read_word32, and_self]
  · rintro ⟨rfl, htype, hreads⟩
    exact getMessage_fields hreads htype

/-- **What `parseHeader` returns** is where the table says, with some tracking number. -/
theorem parseHeader_eq_iff : parseHeader data = header ↔
    header.timestamp.toNat < 2 ^ 48 ∧
      ∃ trackingNumber, ReadsFields data 0 (header.fields trackingNumber) := by
  constructor
  · rintro rfl
    have hlt : (toHostEndianUpTo64 (data.addressOf 5) 6).toNat < 256 ^ 6 :=
      toHostEndianUpTo64_lt (by decide)
    refine ⟨hlt, (toHostEndianUpTo64 (data.addressOf 3) 2).toUInt16, ?_⟩
    simp only [parseHeader, BinaryMessageHeader.fields, ReadsFields, Field.Reads, Field.size,
      read_word16, Nat.mod_eq_of_lt hlt, UInt64.ofNat_toNat, and_self]
  · rintro ⟨h48, trackingNumber, hreads⟩
    exact parseHeader_fields h48 hreads

end Parsers

/-! ## Frames and messages -/

/-- The frame encodes the message. Its first two bytes and its tracking number may be anything, and
so may the place of the padding in a string. -/
structure Frame.Carries (f : Frame) (m : Message) : Prop where
  header : ∃ trackingNumber, AreEncodings f.header (m.header.fields trackingNumber)
  body : AreEncodings f.body m.body.fields

/-- The messages that can be written. -/
structure Message.Encodable (m : Message) : Prop where
  messageType : m.header.messageType = m.body.messageType.char
  timestamp : m.timestamp.toNat < 2 ^ 48
  texts : m.body.TextsFit

section Frames

variable {f : Frame} {m : Message}

theorem areEncodings_header_iff {header : BinaryMessageHeader} {trackingNumber : UInt16} :
    AreEncodings f.header (header.fields trackingNumber) ↔
      ReadsFields (Chars.ofList f.header) 0 (header.fields trackingNumber) := by
  have hsize : ∀ field ∈ header.fields trackingNumber, field.size ≤ 8 := by
    simp [BinaryMessageHeader.fields, Field.size]
  have hsum : ((header.fields trackingNumber).map Field.size).sum = f.header.length :=
    f.header_length.symm
  rw [← areEncodings_iff_reads hsize, hsum, charStarToString_ofList]

theorem areEncodings_body_iff (htype : f.messageType = m.body.messageType.char) :
    AreEncodings f.body m.body.fields ↔ ReadsFields (Chars.ofList f.body) 0 m.body.fields := by
  have hsum : (m.body.fields.map Field.size).sum = f.body.length := by
    rw [m.body.fields_sum_size, f.body_length]
    show _ = messageTypeToNumberOfBytes f.messageType
    rw [htype, messageTypeToNumberOfBytes, MessageType.ofChar_char]
  rw [← areEncodings_iff_reads m.body.fields_size, hsum, charStarToString_ofList]

/-- **Decoding a frame.** -/
theorem Frame.decode_eq_some_iff : f.decode = some m ↔
    m.header.messageType = m.body.messageType.char ∧ m.timestamp.toNat < 2 ^ 48 ∧
      f.Carries m := by
  rw [decode, getMessage_eq_some_iff]
  constructor
  · rintro ⟨hheader, htype, hbody⟩
    obtain ⟨h48, trackingNumber, hreads⟩ := parseHeader_eq_iff.1 hheader.symm
    have hframeType : f.messageType = m.body.messageType.char := htype
    exact ⟨hheader ▸ htype, h48, ⟨trackingNumber, areEncodings_header_iff.2 hreads⟩,
      (areEncodings_body_iff hframeType).2 hbody⟩
  · rintro ⟨htype, h48, ⟨trackingNumber, hheader⟩, hbody⟩
    have hparsed : parseHeader (Chars.ofList f.header) = m.header :=
      parseHeader_eq_iff.2 ⟨h48, trackingNumber, areEncodings_header_iff.1 hheader⟩
    have hframeType : f.messageType = m.body.messageType.char :=
      (congrArg BinaryMessageHeader.messageType hparsed).trans htype
    exact ⟨hparsed.symm, hparsed ▸ htype, (areEncodings_body_iff hframeType).1 hbody⟩

/-- The frame that is written for a message. -/
def Message.toFrame (m : Message) (h : m.Encodable) : Frame where
  ignored := BigEndian.encode numberOfBytesOffsetForHeaderChunk
    (messageHeaderSize + m.body.messageType.size)
  header := encodeFields (m.header.fields 0)
  body := encodeFields m.body.fields
  ignored_length := BigEndian.length_encode _ _
  header_length := length_encodeFields (by simp [BinaryMessageHeader.fields, Field.TextFits])
  body_length := by
    rw [length_encodeFields h.texts, m.body.fields_sum_size]
    show _ = messageTypeToNumberOfBytes m.header.messageType
    rw [h.messageType, messageTypeToNumberOfBytes, MessageType.ofChar_char]

theorem Message.toFrame_carries (h : m.Encodable) : (m.toFrame h).Carries m where
  header := ⟨0, areEncodings_encodeFields (by simp [BinaryMessageHeader.fields, Field.TextFits])⟩
  body := areEncodings_encodeFields h.texts

end Frames

/-- **Encoding undoes decoding.** A frame decodes to a message exactly if it is an encoding of this
message, and exactly the messages with the type of their body, a timestamp of 48 bits and fitting
strings are decoded from some frame. -/
theorem decode_inverts_encoding :
    (∀ (f : Frame) m, f.decode = some m ↔ m.Encodable ∧ f.Carries m) ∧
      ∀ m, (∃ f : Frame, f.decode = some m) ↔ m.Encodable := by
  have hframe : ∀ (f : Frame) m, f.decode = some m ↔ m.Encodable ∧ f.Carries m := by
    intro f m
    rw [Frame.decode_eq_some_iff]
    constructor
    · rintro ⟨htype, h48, hcarries⟩
      exact ⟨⟨htype, h48, hcarries.body.textsFit⟩, hcarries⟩
    · rintro ⟨hencodable, hcarries⟩
      exact ⟨hencodable.messageType, hencodable.timestamp, hcarries⟩
  refine ⟨hframe, fun m => ⟨fun ⟨f, hf⟩ => ((hframe f m).1 hf).1, fun h => ?_⟩⟩
  exact ⟨m.toFrame h, (hframe _ m).2 ⟨h, m.toFrame_carries h⟩⟩

end NasdaqItch
