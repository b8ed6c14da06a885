import NasdaqItch.ByteOrder
import NasdaqItch.Lib.BigEndian
import NasdaqItch.Parse

/-!
# The ITCH encoding

The wire format that the parsers read, as a table: the fields of the header and of each body, in
order, with their widths. Numbers are big-endian, and strings are padded right with spaces.

Each parser keeps an offset of its own. One lemma walks the table beside it (`reads_fields`), and
each parser is then its table (`getMessage_fields`).
-/

namespace NasdaqItch

open BigEndian

/-! ## Fields -/

/-- A field with its value. -/
inductive Field
  | number (size : Nat) (value : Nat)
  | char (c : UInt8)
  | text (size : Nat) (str : Bytes)

namespace Field

/-- In how many bytes it is written. -/
def size : Field → Nat
  | .number size _ => size
  | .char _ => 1
  | .text size _ => size

def encode : Field → Bytes
  | .number size value => BigEndian.encode size value
  | .char c => [c]
  | .text size str => str.rightpad size ' '.toUInt8

/-- A string has at most as many characters as there is room for, and none that is stripped. -/
def TextFits : Field → Prop
  | .text size str => str.length ≤ size ∧ ∀ c ∈ str, isspace c = false
  | _ => True

instance : (field : Field) → Decidable field.TextFits
  | .number _ _ => inferInstanceAs (Decidable True)
  | .char _ => inferInstanceAs (Decidable True)
  | .text size str =>
      have : Decidable (∀ c ∈ str, isspace c = false) := List.decidableBAll _ _
      inferInstanceAs (Decidable (str.length ≤ size ∧ ∀ c ∈ str, isspace c = false))

/-- What a parser finds at the field's offset. -/
def Reads (data : Chars) (offset : Nat) : Field → Prop
  | .number size value =>
      toHostEndianUpTo64 (data.addressOf offset) size = UInt64.ofNat (value % 256 ^ size)
  | .char c => data offset = c
  | .text size str =>
      stripWhitespaceFromCPPString (charStarToString (data.addressOf offset) size) = str

theorem length_encode {field : Field} (h : field.TextFits) :
    field.encode.length = field.size := by
  cases field with
  | number size value => exact BigEndian.length_encode size value
  | char c => rfl
  | text size str =>
      show (str.rightpad size _).length = size
      rw [List.length_rightpad]
      exact Nat.max_eq_left h.1

end Field

/-- One field behind the other. -/
def encodeFields (fields : List Field) : Bytes := fields.flatMap Field.encode

/-- What a parser finds when it walks over the fields. -/
def ReadsFields (data : Chars) : Nat → List Field → Prop
  | _, [] => True
  | offset, field :: fields =>
      field.Reads data offset ∧ ReadsFields data (offset + field.size) fields

/-- From the offset on, the buffer holds these bytes; what lies behind them may be anything. -/
def HoldsAt (data : Chars) (offset : Nat) (bytes : Bytes) : Prop :=
  ∀ i (hi : i < bytes.length), data (offset + i) = bytes[i]

section Fields

variable {data : Chars} {offset : Nat} {bytes bytes' : Bytes} {field : Field} {fields : List Field}

theorem holdsAt_copy (buffer : Chars) (offset : Nat) (bytes : Bytes) :
    HoldsAt (buffer.copy offset bytes) offset bytes := by
  intro i hi
  rw [Chars.copy_offset_add hi]
  unfold Chars.ofList
  rw [List.getElem?_eq_getElem hi, Option.getD_some]

theorem HoldsAt.left (h : HoldsAt data offset (bytes ++ bytes')) : HoldsAt data offset bytes := by
  intro i hi
  have hlt : i < (bytes ++ bytes').length := by
    rw [List.length_append]
    exact Nat.lt_add_right _ hi
  rw [h i hlt, List.getElem_append_left hi]

theorem HoldsAt.right (h : HoldsAt data offset (bytes ++ bytes')) :
    HoldsAt data (offset + bytes.length) bytes' := by
  intro i hi
  have hlt : bytes.length + i < (bytes ++ bytes').length := by
    rw [List.length_append]
    exact Nat.add_lt_add_left hi _
  rw [Nat.add_assoc, h _ hlt, List.getElem_append_right (Nat.le_add_right _ _)]
  simp only [Nat.add_sub_cancel_left]

theorem HoldsAt.map_range {size : Nat} (h : HoldsAt data offset bytes)
    (hsize : bytes.length = size) : (List.range size).map (data.addressOf offset) = bytes := by
  subst hsize
  apply List.ext_getElem
  · rw [List.length_map, List.length_range]
  · intro i _ hi
    rw [List.getElem_map, List.getElem_range]
    exact h i hi

theorem reads_number {size value : Nat} (hsize : size ≤ 8)
    (h : HoldsAt data offset (BigEndian.encode size value)) :
    (Field.number size value).Reads data offset := by
  show toHostEndianUpTo64 (data.addressOf offset) size = _
  have hvalue : (toHostEndianUpTo64 (data.addressOf offset) size).toNat = value % 256 ^ size := by
    rw [toHostEndianUpTo64_eq_value hsize, h.map_range (length_encode size value), value_encode]
  rw [← hvalue, UInt64.ofNat_toNat]

theorem reads_text {size : Nat} {str : Bytes} (hfits : (Field.text size str).TextFits)
    (h : HoldsAt data offset (str.rightpad size ' '.toUInt8)) :
    (Field.text size str).Reads data offset := by
  have hlength : (str.rightpad size ' '.toUInt8).length = size := Field.length_encode hfits
  show stripWhitespaceFromCPPString (charStarToString (data.addressOf offset) size) = str
  unfold charStarToString stripWhitespaceFromCPPString
  rw [h.map_range hlength]
  unfold List.rightpad
  rw [List.filter_append, List.filter_eq_self.2 fun c hc => by rw [hfits.2 c hc]; rfl,
    List.filter_replicate_of_neg (by decide), List.append_nil]

/-- **A parser finds the fields that were written.** -/
theorem reads_fields (hsize : ∀ field ∈ fields, field.size ≤ 8)
    (hfits : ∀ field ∈ fields, field.TextFits)
    (h : HoldsAt data offset (encodeFields fields)) : ReadsFields data offset fields := by
  induction fields generalizing offset with
  | nil => trivial
  | cons field fields ih =>
      have hfield : HoldsAt data offset field.encode := h.left
      have hrest := h.right
      rw [Field.length_encode (hfits field List.mem_cons_self)] at hrest
      refine ⟨?_, ih (fun f hf => hsize f (List.mem_cons_of_mem _ hf))
        (fun f hf => hfits f (List.mem_cons_of_mem _ hf)) hrest⟩
      cases field with
      | number size value => exact reads_number (hsize _ List.mem_cons_self) hfield
      | char c => exact hfield 0 Nat.zero_lt_one
      | text size str => exact reads_text (hfits _ List.mem_cons_self) hfield

end Fields

/-! ## The header and the bodies -/

/-- The header, with the tracking number that is skipped. -/
def BinaryMessageHeader.fields (header : BinaryMessageHeader) (trackingNumber : UInt16) :
    List Field :=
  [.char header.messageType, .number 2 header.stockLocate.toNat, .number 2 trackingNumber.toNat,
    .number 6 header.timestamp.toNat]

namespace Body

def messageType : Body → MessageType
  | .addOrder _ => .addOrderNoMpid
  | .addOrderMPID _ => .addOrderWithMpid
  | .brokenTrade _ => .tradeBroken
  | .crossTrade _ => .tradeCross
  | .orderCancel _ => .orderCancelled
  | .orderDelete _ => .orderDelete
  | .orderExecuted _ => .orderExecuted
  | .orderExecutedWithPrice _ => .orderExecutedWithPrice
  | .orderReplace _ => .orderReplace
  | .stockTradingAction _ => .stockTradingAction
  | .systemEvent _ => .systemEvent
  | .tradeNonCross _ => .tradeNonCross

def fields : Body → List Field
  | .addOrder o =>
      [.number 8 o.orderReferenceNumber.toNat, .char o.buySellIndicator,
        .number 4 o.shares.toNat, .text stockSize o.stock, .number 4 o.price.toNat]
  | .addOrderMPID o =>
      [.number 8 o.orderReferenceNumber.toNat, .char o.buySellIndicator,
        .number 4 o.shares.toNat, .text stockSize o.stock, .number 4 o.price.toNat,
        .text attributionSize o.attribution]
  | .brokenTrade t => [.number 8 t.matchNumber.toNat]
  | .crossTrade t =>
      [.number 8 t.shares.toNat, .text stockSize t.stock, .number 4 t.crossPrice.toNat,
        .number 8 t.matchNumber.toNat, .char t.crossType]
  | .orderCancel o => [.number 8 o.orderReferenceNumber.toNat, .number 4 o.cancelledShares.toNat]
  | .orderDelete o => [.number 8 o.orderReferenceNumber.toNat]
  | .orderExecuted o =>
      [.number 8 o.orderReferenceNumber.toNat, .number 4 o.executedShares.toNat,
        .number 8 o.matchNumber.toNat]
  | .orderExecutedWithPrice o =>
      [.number 8 o.orderReferenceNumber.toNat, .number 4 o.executedShares.toNat,
        .number 8 o.matchNumber.toNat, .char o.printable, .number 4 o.executionPrice.toNat]
  | .orderReplace o =>
      [.number 8 o.originalOrderReferenceNumber.toNat, .number 8 o.newOrderReferenceNumber.toNat,
        .number 4 o.shares.toNat, .number 4 o.price.toNat]
  | .stockTradingAction a =>
      [.text stockSize a.stock, .char a.tradingState, .char a.reserved, .text reasonSize a.reason]
  | .systemEvent s => [.char s.eventCode]
  | .tradeNonCross t =>
      [.number 8 t.orderReferenceNumber.toNat, .char t.buySellIndicator, .number 4 t.shares.toNat,
        .text stockSize t.stock, .number 4 t.price.toNat, .number 8 t.matchNumber.toNat]

/-- The symbol, the attribution and the reason fit into their fields. -/
def TextsFit (body : Body) : Prop := ∀ field ∈ body.fields, field.TextFits

instance (body : Body) : Decidable body.TextsFit :=
  inferInstanceAs (Decidable (∀ field ∈ body.fields, field.TextFits))

theorem fields_size (body : Body) : ∀ field ∈ body.fields, field.size ≤ 8 := by
  cases body <;> simp [fields, Field.size, attributionSize, reasonSize]

/-- The table of sizes agrees with the layouts. -/
theorem fields_sum_size (body : Body) :
    (body.fields.map Field.size).sum = body.messageType.size := by
  cases body <;> rfl

end Body

/-! ## The parsers against the table -/

section Parsers

variable {data : Chars} {header : BinaryMessageHeader} {body : Body}

theorem word64_read (v : UInt64) : UInt64.ofNat (v.toNat % 256 ^ 8) = v := by
  have hfits : v.toNat < 256 ^ 8 := v.toNat_lt
  rw [Nat.mod_eq_of_lt hfits, UInt64.ofNat_toNat]

theorem word32_read (v : UInt32) : (UInt64.ofNat (v.toNat % 256 ^ 4)).toUInt32 = v := by
  have hfits : v.toNat < 256 ^ 4 := v.toNat_lt
  rw [Nat.mod_eq_of_lt hfits]
  exact (UInt64.toUInt32_ofNat' ..).trans UInt32.ofNat_toNat

theorem word16_read (v : UInt16) : (UInt64.ofNat (v.toNat % 256 ^ 2)).toUInt16 = v := by
  have hfits : v.toNat < 256 ^ 2 := v.toNat_lt
  rw [Nat.mod_eq_of_lt hfits]
  exact (UInt64.toUInt16_ofNat' ..).trans UInt16.ofNat_toNat

theorem getMessage_fields (hreads : ReadsFields data 0 body.fields)
    (htype : header.messageType = body.messageType.char) :
    getMessage data header = some ⟨header, body⟩ := by
  unfold getMessage
  rw [htype, MessageType.ofChar_char]
  cases body <;>
    simp only [Body.fields, ReadsFields, Field.Reads, Field.size, word64_read] at hreads <;>
    simp only [Body.messageType, parseAddOrderBody, parseAddOrderMPIDBody,
      parseBrokenTradeOrOrderExecutionBody, parseCrossTradeBody, parseOrderCancelBody,
      parseOrderDeleteBody, parseOrderExecutedBody, parseOrderExecutedWithPriceBody,
      parseOrderReplaceBody, parseStockTradingActionBody, parseSystemEventBody,
      parseTradeNonCrossBody, hreads, word32_read]

theorem parseHeader_fields {trackingNumber : UInt16} (h48 : header.timestamp.toNat < 2 ^ 48)
    (hreads : ReadsFields data 0 (header.fields trackingNumber)) : parseHeader data = header := by
  have htime : UInt64.ofNat (header.timestamp.toNat % 256 ^ 6) = header.timestamp := by
    have hfits : header.timestamp.toNat < 256 ^ 6 := h48
    rw [Nat.mod_eq_of_lt hfits, UInt64.ofNat_toNat]
  simp only [BinaryMessageHeader.fields, ReadsFields, Field.Reads, Field.size, htime] at hreads
  simp only [parseHeader, hreads, word16_read]

theorem length_encodeFields {fields : List Field} (hfits : ∀ field ∈ fields, field.TextFits) :
    (encodeFields fields).length = (fields.map Field.size).sum := by
  unfold encodeFields
  rw [List.length_flatMap, List.map_congr_left fun field hf => Field.length_encode (hfits field hf)]

end Parsers

/-- **Decoding undoes encoding.** For every message of the twelve types, whatever its tracking
number was: where the buffer holds the encoded header and the encoded body, the parsers return
this message; the encoded header and body have the sizes that the reading loop takes. -/
theorem getMessage_encode {m : Message} {trackingNumber : UInt16} {headerData bodyData : Chars}
    (htype : m.header.messageType = m.body.messageType.char)
    (h48 : m.header.timestamp.toNat < 2 ^ 48) (htexts : m.body.TextsFit)
    (hheader : HoldsAt headerData 0 (encodeFields (m.header.fields trackingNumber)))
    (hbody : HoldsAt bodyData 0 (encodeFields m.body.fields)) :
    parseHeader headerData = m.header ∧
      getMessage bodyData (parseHeader headerData) = some m ∧
      (encodeFields (m.header.fields trackingNumber)).length = messageHeaderSize ∧
      (encodeFields m.body.fields).length = messageTypeToNumberOfBytes m.header.messageType := by
  have hheaderFits : ∀ field ∈ m.header.fields trackingNumber, field.TextFits := by
    simp [BinaryMessageHeader.fields, Field.TextFits]
  have hheaderSize : ∀ field ∈ m.header.fields trackingNumber, field.size ≤ 8 := by
    simp [BinaryMessageHeader.fields, Field.size]
  have hparsed : parseHeader headerData = m.header :=
    parseHeader_fields h48 (reads_fields hheaderSize hheaderFits hheader)
  refine ⟨hparsed, ?_, ?_, ?_⟩
  · rw [hparsed]
    exact getMessage_fields (reads_fields m.body.fields_size htexts hbody) htype
  · rw [length_encodeFields hheaderFits]
    rfl
  · rw [length_encodeFields htexts, m.body.fields_sum_size, htype]
    unfold messageTypeToNumberOfBytes
    rw [MessageType.ofChar_char]

/-- A trade, read into a buffer that is full of ones. -/
def appleTrade : Message where
  header := ⟨'P'.toUInt8, 13, 36000000000000⟩
  body := .tradeNonCross
    ⟨0, 'B'.toUInt8, 100, ['A', 'A', 'P', 'L'].map Char.toUInt8, 1541000, 70368744177664⟩

theorem getMessage_encode_appleTrade :
    getMessage (Chars.copy (fun _ => 0xFF) 0 (encodeFields appleTrade.body.fields))
      (parseHeader (Chars.copy (fun _ => 0xFF) 0 (encodeFields (appleTrade.header.fields 2)))) =
        some appleTrade :=
  (getMessage_encode rfl (by simp [appleTrade]) (by decide) (holdsAt_copy _ _ _)
    (holdsAt_copy _ _ _)).2.1

end NasdaqItch
