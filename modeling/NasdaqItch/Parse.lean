import NasdaqItch.Lib.Istream
import NasdaqItch.Message

/-!
# Parsing

The `parse...Body` functions of `src/messages/`, `ProcessMessage::getMessage`, and the table of
body sizes. The tracking number of the header is never read. Integers are big-endian in the
file; the host is little-endian.

A message of type `t` is parsed from the first `messageTypeToNumberOfBytes t` bytes of its body
and from no others (`getMessage_upTo`).
-/

namespace NasdaqItch

/-! ## Integers and strings -/

def toHostEndianUpTo64 (data : Chars) (size : Nat) : UInt64 :=
  (List.range size).foldl
    (fun result i => result ||| (data i).toUInt64 <<< (UInt64.ofNat ((size - 1 - i) * 8))) 0

/-- `std::string(data, size)`. -/
def charStarToString (data : Chars) (size : Nat) : Bytes := (List.range size).map data

/-- `isspace` in the C locale. -/
def isspace (c : UInt8) : Bool := c = 32 || (9 ≤ c && c ≤ 13)

def stripWhitespaceFromCPPString (str : Bytes) : Bytes := str.filter fun c => !isspace c

section UpTo

variable {data : Chars} {offset size n : Nat}

theorem addressOf_upTo (h : offset + size ≤ n) (i : Nat) (hi : i < size) :
    (data.upTo n).addressOf offset i = data.addressOf offset i :=
  if_pos (Nat.lt_of_lt_of_le (Nat.add_lt_add_left hi offset) h)

theorem toHostEndianUpTo64_upTo (h : offset + size ≤ n) :
    toHostEndianUpTo64 ((data.upTo n).addressOf offset) size =
      toHostEndianUpTo64 (data.addressOf offset) size := by
  unfold toHostEndianUpTo64
  apply List.foldl_ext
  intro result i hi
  rw [addressOf_upTo h i (List.mem_range.1 hi)]

theorem charStarToString_upTo (h : offset + size ≤ n) :
    charStarToString ((data.upTo n).addressOf offset) size =
      charStarToString (data.addressOf offset) size := by
  unfold charStarToString
  apply List.map_congr_left
  intro i hi
  exact addressOf_upTo h i (List.mem_range.1 hi)

end UpTo

/-! ## The header -/

abbrev messageHeaderSize : Nat := 11

def parseHeader (data : Chars) : BinaryMessageHeader :=
  let offset := 0
  let messageType := data offset
  let offset := offset + 1
  let stockLocate := (toHostEndianUpTo64 (data.addressOf offset) 2).toUInt16
  let offset := offset + 2
  let offset := offset + 2
  let timestamp := toHostEndianUpTo64 (data.addressOf offset) 6
  ⟨messageType, stockLocate, timestamp⟩

theorem parseHeader_upTo (data : Chars) :
    parseHeader (data.upTo messageHeaderSize) = parseHeader data := by
  simp (disch := decide) only [parseHeader, toHostEndianUpTo64_upTo, Chars.upTo_of_lt]

theorem parseHeader_congr {data data' : Chars}
    (h : ∀ i < messageHeaderSize, data i = data' i) : parseHeader data = parseHeader data' := by
  rw [← parseHeader_upTo data, Chars.upTo_congr h, parseHeader_upTo]

/-! ## The bodies -/

abbrev stockSize : Nat := 8

abbrev tradingStateSize : Nat := 1

abbrev reservedSize : Nat := 1

abbrev reasonSize : Nat := 4

abbrev attributionSize : Nat := 4

section Bodies

variable (header : BinaryMessageHeader) (data : Chars)

def parseAddOrderBody : Message :=
  let offset := 0
  let orderReferenceNumber := toHostEndianUpTo64 (data.addressOf offset) 8
  let offset := offset + 8
  let buySellIndicator := data offset
  let offset := offset + 1
  let shares := (toHostEndianUpTo64 (data.addressOf offset) 4).toUInt32
  let offset := offset + 4
  let stock := charStarToString (data.addressOf offset) stockSize
  let stock := stripWhitespaceFromCPPString stock
  let offset := offset + stockSize
  let price := (toHostEndianUpTo64 (data.addressOf offset) 4).toUInt32
  ⟨header, .addOrder ⟨orderReferenceNumber, buySellIndicator, shares, stock, price⟩⟩

def parseAddOrderMPIDBody : Message :=
  let offset := 0
  let orderReferenceNumber := toHostEndianUpTo64 (data.addressOf offset) 8
  let offset := offset + 8
  let buySellIndicator := data offset
  let offset := offset + 1
  let shares := (toHostEndianUpTo64 (data.addressOf offset) 4).toUInt32
  let offset := offset + 4
  let stock := charStarToString (data.addressOf offset) stockSize
  let stock := stripWhitespaceFromCPPString stock
  let offset := offset + stockSize
  let price := (toHostEndianUpTo64 (data.addressOf offset) 4).toUInt32
  let offset := offset + 4
  let attribution := charStarToString (data.addressOf offset) attributionSize
  let attribution := stripWhitespaceFromCPPString attribution
  ⟨header,
    .addOrderMPID ⟨orderReferenceNumber, buySellIndicator, shares, stock, price, attribution⟩⟩

def parseBrokenTradeOrOrderExecutionBody : Message :=
  let offset := 0
  let matchNumber := toHostEndianUpTo64 (data.addressOf offset) 8
  ⟨header, .brokenTrade ⟨matchNumber⟩⟩

def parseCrossTradeBody : Message :=
  let offset := 0
  let shares := toHostEndianUpTo64 (data.addressOf offset) 8
  let offset := offset + 8
  let stock := charStarToString (data.addressOf offset) stockSize
  let stock := stripWhitespaceFromCPPString stock
  let offset := offset + stockSize
  let crossPrice := (toHostEndianUpTo64 (data.addressOf offset) 4).toUInt32
  let offset := offset + 4
  let matchNumber := toHostEndianUpTo64 (data.addressOf offset) 8
  let offset := offset + 8
  let crossType := data offset
  ⟨header, .crossTrade ⟨shares, stock, crossPrice, matchNumber, crossType⟩⟩

def parseOrderCancelBody : Message :=
  let offset := 0
  let orderReferenceNumber := toHostEndianUpTo64 (data.addressOf offset) 8
  let offset := offset + 8
  let cancelledShares := (toHostEndianUpTo64 (data.addressOf offset) 4).toUInt32
  ⟨header, .orderCancel ⟨orderReferenceNumber, cancelledShares⟩⟩

def parseOrderDeleteBody : Message :=
  let offset := 0
  let orderReferenceNumber := toHostEndianUpTo64 (data.addressOf offset) 8
  ⟨header, .orderDelete ⟨orderReferenceNumber⟩⟩

def parseOrderExecutedBody : Message :=
  let offset := 0
  let orderReferenceNumber := toHostEndianUpTo64 (data.addressOf offset) 8
  let offset := offset + 8
  let executedShares := (toHostEndianUpTo64 (data.addressOf offset) 4).toUInt32
  let offset := offset + 4
  let matchNumber := toHostEndianUpTo64 (data.addressOf offset) 8
  ⟨header, .orderExecuted ⟨orderReferenceNumber, executedShares, matchNumber⟩⟩

def parseOrderExecutedWithPriceBody : Message :=
  let offset := 0
  let orderReferenceNumber := toHostEndianUpTo64 (data.addressOf offset) 8
  let offset := offset + 8
  let executedShares := (toHostEndianUpTo64 (data.addressOf offset) 4).toUInt32
  let offset := offset + 4
  let matchNumber := toHostEndianUpTo64 (data.addressOf offset) 8
  let offset := offset + 8
  let printable := data offset
  let offset := offset + 1
  let executionPrice := (toHostEndianUpTo64 (data.addressOf offset) 4).toUInt32
  ⟨header, .orderExecutedWithPrice
    ⟨orderReferenceNumber, executedShares, matchNumber, printable, executionPrice⟩⟩

def parseOrderReplaceBody : Message :=
  let offset := 0
  let originalOrderReferenceNumber := toHostEndianUpTo64 (data.addressOf offset) 8
  let offset := offset + 8
  let newOrderReferenceNumber := toHostEndianUpTo64 (data.addressOf offset) 8
  let offset := offset + 8
  let shares := (toHostEndianUpTo64 (data.addressOf offset) 4).toUInt32
  let offset := offset + 4
  let price := (toHostEndianUpTo64 (data.addressOf offset) 4).toUInt32
  ⟨header, .orderReplace ⟨originalOrderReferenceNumber, newOrderReferenceNumber, shares, price⟩⟩

def parseStockTradingActionBody : Message :=
  let offset := 0
  let stock := charStarToString (data.addressOf offset) stockSize
  let stock := stripWhitespaceFromCPPString stock
  let offset := offset + stockSize
  let tradingState := data offset
  let offset := offset + tradingStateSize
  let reserved := data offset
  let offset := offset + reservedSize
  let reason := charStarToString (data.addressOf offset) reasonSize
  let reason := stripWhitespaceFromCPPString reason
  ⟨header, .stockTradingAction ⟨stock, tradingState, reserved, reason⟩⟩

def parseSystemEventBody : Message :=
  let offset := 0
  let eventCode := data offset
  ⟨header, .systemEvent ⟨eventCode⟩⟩

def parseTradeNonCrossBody : Message :=
  let offset := 0
  let orderReferenceNumber := toHostEndianUpTo64 (data.addressOf offset) 8
  let offset := offset + 8
  let buySellIndicator := data offset
  let offset := offset + 1
  let shares := (toHostEndianUpTo64 (data.addressOf offset) 4).toUInt32
  let offset := offset + 4
  let stock := charStarToString (data.addressOf offset) stockSize
  let stock := stripWhitespaceFromCPPString stock
  let offset := offset + stockSize
  let price := (toHostEndianUpTo64 (data.addressOf offset) 4).toUInt32
  let offset := offset + 4
  let matchNumber := toHostEndianUpTo64 (data.addressOf offset) 8
  ⟨header,
    .tradeNonCross ⟨orderReferenceNumber, buySellIndicator, shares, stock, price, matchNumber⟩⟩

end Bodies

/-! ## Message types -/

/-- The `MESSAGE_TYPE_...` constants. -/
inductive MessageType
  | systemEvent | stockDirectory | stockTradingAction | regSho | marketParticipantPosition
  | mwcbDeclineLevel | mwcbStatus | quotingPeriodUpdate | luldAuctionCollar | operationalHalt
  | addOrderNoMpid | addOrderWithMpid | orderExecuted | orderExecutedWithPrice | orderCancelled
  | orderDelete | orderReplace | tradeNonCross | tradeCross | tradeBroken | noii | rpii
  | dlcrPriceDiscovery
  deriving DecidableEq, Repr

namespace MessageType

def char : MessageType → UInt8
  | .systemEvent => 'S'.toUInt8
  | .stockDirectory => 'R'.toUInt8
  | .stockTradingAction => 'H'.toUInt8
  | .regSho => 'Y'.toUInt8
  | .marketParticipantPosition => 'L'.toUInt8
  | .mwcbDeclineLevel => 'V'.toUInt8
  | .mwcbStatus => 'W'.toUInt8
  | .quotingPeriodUpdate => 'K'.toUInt8
  | .luldAuctionCollar => 'J'.toUInt8
  | .operationalHalt => 'h'.toUInt8
  | .addOrderNoMpid => 'A'.toUInt8
  | .addOrderWithMpid => 'F'.toUInt8
  | .orderExecuted => 'E'.toUInt8
  | .orderExecutedWithPrice => 'C'.toUInt8
  | .orderCancelled => 'X'.toUInt8
  | .orderDelete => 'D'.toUInt8
  | .orderReplace => 'U'.toUInt8
  | .tradeNonCross => 'P'.toUInt8
  | .tradeCross => 'Q'.toUInt8
  | .tradeBroken => 'B'.toUInt8
  | .noii => 'I'.toUInt8
  | .rpii => 'N'.toUInt8
  | .dlcrPriceDiscovery => 'O'.toUInt8

/-- The `MESSAGE_SIZE_...` constants, without the header. -/
def size : MessageType → Nat
  | .systemEvent => 1
  | .stockDirectory => 28
  | .stockTradingAction => 14
  | .regSho => 9
  | .marketParticipantPosition => 15
  | .mwcbDeclineLevel => 24
  | .mwcbStatus => 1
  | .quotingPeriodUpdate => 17
  | .luldAuctionCollar => 24
  | .operationalHalt => 10
  | .addOrderNoMpid => 25
  | .addOrderWithMpid => 29
  | .orderExecuted => 20
  | .orderExecutedWithPrice => 25
  | .orderCancelled => 12
  | .orderDelete => 8
  | .orderReplace => 24
  | .tradeNonCross => 33
  | .tradeCross => 29
  | .tradeBroken => 8
  | .noii => 39
  | .rpii => 9
  | .dlcrPriceDiscovery => 37

/-- All of them, in the order of `messageTypeToNumberOfBytes`. -/
def all : List MessageType :=
  [.systemEvent, .stockDirectory, .stockTradingAction, .regSho, .marketParticipantPosition,
    .mwcbDeclineLevel, .mwcbStatus, .quotingPeriodUpdate, .luldAuctionCollar, .operationalHalt,
    .addOrderNoMpid, .addOrderWithMpid, .orderExecuted, .orderExecutedWithPrice, .orderCancelled,
    .orderDelete, .orderReplace, .tradeNonCross, .tradeCross, .tradeBroken, .noii, .rpii,
    .dlcrPriceDiscovery]

/-- The `case` that a `switch` on a character goes to. -/
def ofChar (c : UInt8) : Option MessageType := all.find? fun t => t.char = c

end MessageType

/-- The types have different characters, so a character of one of them finds its `case`. -/
@[simp] theorem MessageType.ofChar_char (t : MessageType) : ofChar t.char = some t := by
  cases t <;> rfl

/-- How many bytes the body of a message has. -/
def messageTypeToNumberOfBytes (messageType : UInt8) : Nat :=
  match MessageType.ofChar messageType with
  | some t => t.size
  | none => 0

/-- The message, or `none` for the null pointer. The number of bytes to read is a parameter of the
source's function and is not used there. -/
def getMessage (data : Chars) (header : BinaryMessageHeader) : Option Message :=
  match MessageType.ofChar header.messageType with
  | some .addOrderNoMpid => some (parseAddOrderBody header data)
  | some .addOrderWithMpid => some (parseAddOrderMPIDBody header data)
  | some .tradeBroken => some (parseBrokenTradeOrOrderExecutionBody header data)
  | some .tradeCross => some (parseCrossTradeBody header data)
  | some .orderCancelled => some (parseOrderCancelBody header data)
  | some .orderDelete => some (parseOrderDeleteBody header data)
  | some .orderExecuted => some (parseOrderExecutedBody header data)
  | some .orderExecutedWithPrice => some (parseOrderExecutedWithPriceBody header data)
  | some .orderReplace => some (parseOrderReplaceBody header data)
  | some .stockTradingAction => some (parseStockTradingActionBody header data)
  | some .systemEvent => some (parseSystemEventBody header data)
  | some .tradeNonCross => some (parseTradeNonCrossBody header data)
  | _ => none

/-- The types that `getMessage` has a case for. -/
def parsedTypes : List MessageType :=
  [.addOrderNoMpid, .addOrderWithMpid, .tradeBroken, .tradeCross, .orderCancelled, .orderDelete,
    .orderExecuted, .orderExecutedWithPrice, .orderReplace, .stockTradingAction, .systemEvent,
    .tradeNonCross]

/-- Whether a message whose header has this type is parsed. -/
def isParsed (messageType : UInt8) : Bool :=
  match MessageType.ofChar messageType with
  | some t => t ∈ parsedTypes
  | none => false

theorem isSome_getMessage (data : Chars) (header : BinaryMessageHeader) :
    (getMessage data header).isSome = isParsed header.messageType := by
  unfold getMessage isParsed
  rcases MessageType.ofChar header.messageType with _ | t
  · rfl
  · cases t <;> rfl

/-- **Nothing behind the body is read.** -/
theorem getMessage_upTo (data : Chars) (header : BinaryMessageHeader) :
    getMessage (data.upTo (messageTypeToNumberOfBytes header.messageType)) header =
      getMessage data header := by
  unfold getMessage messageTypeToNumberOfBytes
  rcases MessageType.ofChar header.messageType with _ | t
  · rfl
  · cases t <;> simp (disch := decide) only [MessageType.size, parseAddOrderBody,
      parseAddOrderMPIDBody, parseBrokenTradeOrOrderExecutionBody, parseCrossTradeBody,
      parseOrderCancelBody, parseOrderDeleteBody, parseOrderExecutedBody,
      parseOrderExecutedWithPriceBody, parseOrderReplaceBody, parseStockTradingActionBody,
      parseSystemEventBody, parseTradeNonCrossBody, toHostEndianUpTo64_upTo,
      charStarToString_upTo, Chars.upTo_of_lt]

theorem getMessage_congr {data data' : Chars} {header : BinaryMessageHeader}
    (h : ∀ i < messageTypeToNumberOfBytes header.messageType, data i = data' i) :
    getMessage data header = getMessage data' header := by
  rw [← getMessage_upTo data, Chars.upTo_congr h, getMessage_upTo]

end NasdaqItch
