import NasdaqItch.Lib.BigEndian
import NasdaqItch.Parse

/-!
# Byte orders

`toHostEndianUpTo64` has a body for each byte order of the host. The loop for a little-endian host
reads the number (`toHostEndianUpTo64_toNat`). On a big-endian host the bytes are compared with the
result, which nothing has initialised, and not copied into it: what is returned is what the local
held before. So the two agree exactly if that is the number already (`byte_orders_agree_iff`).
-/

namespace NasdaqItch

open BigEndian

/-! ## The two bodies -/

/-- The number in the first `size` bytes, the most significant first. -/
def bigEndianValue (data : Chars) (size : Nat) : Nat :=
  ∑ i ∈ Finset.range size, (data i).toNat * 256 ^ (size - 1 - i)

/-- A 64-bit integer in the memory of a big-endian host. -/
def storedBytes (value : UInt64) : Chars := Chars.ofList (encode 8 value.toNat)

/-- `std::memcmp`, of which only the sign counts. Nothing is written. -/
def memcmp (lhs rhs : Chars) (size : Nat) : Ordering :=
  compare ((List.range size).map lhs) ((List.range size).map rhs)

/-- `toHostEndianUpTo64` on a big-endian host; `uninitialised` is what the local holds when it is
declared. -/
def toHostEndianUpTo64OnBigEndianHost (uninitialised : UInt64) (data : Chars) (size : Nat) :
    UInt64 :=
  let result := uninitialised
  let _ := memcmp (storedBytes result) data size
  result

/-- `parseHeader` on a big-endian host. Each of its two calls has a local of its own. -/
def parseHeaderOnBigEndianHost (uninitialised uninitialised' : UInt64) (data : Chars) :
    BinaryMessageHeader :=
  let offset := 0
  let messageType := data offset
  let offset := offset + 1
  let stockLocate :=
    (toHostEndianUpTo64OnBigEndianHost uninitialised (data.addressOf offset) 2).toUInt16
  let offset := offset + 2
  let offset := offset + 2
  let timestamp := toHostEndianUpTo64OnBigEndianHost uninitialised' (data.addressOf offset) 6
  ⟨messageType, stockLocate, timestamp⟩

/-- Both bodies return the number. -/
def ByteOrdersAgree (uninitialised : UInt64) (data : Chars) (size : Nat) : Prop :=
  (toHostEndianUpTo64 data size).toNat = bigEndianValue data size ∧
    (toHostEndianUpTo64OnBigEndianHost uninitialised data size).toNat = bigEndianValue data size

section Loop

variable {data : Chars} {size : Nat}

theorem toHostEndianUpTo64_eq_value (hsize : size ≤ 8) :
    (toHostEndianUpTo64 data size).toNat = value ((List.range size).map data) :=
  orShift_toNat hsize

/-- **The loop for a little-endian host reads the number.** -/
theorem toHostEndianUpTo64_toNat (hsize : size ≤ 8) :
    (toHostEndianUpTo64 data size).toNat = bigEndianValue data size := by
  rw [toHostEndianUpTo64_eq_value hsize, value_eq_sum, bigEndianValue]

end Loop

section BigEndianHost

variable {data : Chars} {size : Nat} {uninitialised uninitialised' : UInt64}

/-- The bytes of the message play no part. -/
@[simp] theorem toHostEndianUpTo64OnBigEndianHost_eq :
    toHostEndianUpTo64OnBigEndianHost uninitialised data size = uninitialised := rfl

theorem byteOrdersAgree_iff_local (hsize : size ≤ 8) :
    ByteOrdersAgree uninitialised data size ↔
      uninitialised.toNat = bigEndianValue data size := by
  rw [ByteOrdersAgree, toHostEndianUpTo64OnBigEndianHost_eq]
  exact and_iff_right (toHostEndianUpTo64_toNat hsize)

theorem not_forall_byteOrdersAgree (hsize : size ≤ 8) :
    ¬ ∀ uninitialised, ByteOrdersAgree uninitialised data size := by
  intro h
  have hzero := (byteOrdersAgree_iff_local hsize).1 (h 0)
  have hone := (byteOrdersAgree_iff_local hsize).1 (h 1)
  rw [← hzero] at hone
  exact absurd hone (by decide)

/-- Of the first local, only the 16 bits that the stock locate keeps matter. -/
theorem parseHeaderOnBigEndianHost_eq_iff :
    parseHeaderOnBigEndianHost uninitialised uninitialised' data = parseHeader data ↔
      uninitialised.toNat % 2 ^ 16 = bigEndianValue (data.addressOf 1) 2 % 2 ^ 16 ∧
        uninitialised'.toNat = bigEndianValue (data.addressOf 5) 6 := by
  have hlocate : uninitialised.toUInt16 = (toHostEndianUpTo64 (data.addressOf 1) 2).toUInt16 ↔
      uninitialised.toNat % 2 ^ 16 = bigEndianValue (data.addressOf 1) 2 % 2 ^ 16 := by
    rw [← UInt16.toNat_inj, UInt64.toNat_toUInt16, UInt64.toNat_toUInt16,
      toHostEndianUpTo64_toNat (by decide)]
  have htimestamp : uninitialised' = toHostEndianUpTo64 (data.addressOf 5) 6 ↔
      uninitialised'.toNat = bigEndianValue (data.addressOf 5) 6 := by
    rw [← UInt64.toNat_inj, toHostEndianUpTo64_toNat (by decide)]
  rw [← hlocate, ← htimestamp]
  simp only [parseHeaderOnBigEndianHost, parseHeader, toHostEndianUpTo64OnBigEndianHost_eq,
    BinaryMessageHeader.mk.injEq, true_and]

end BigEndianHost

/-- **When the byte orders agree**: exactly if the local of the body for a big-endian host holds
the number before the bytes are looked at, so for no bytes whatever it holds. The header is the
same on both hosts exactly if both of its locals do. -/
theorem byte_orders_agree_iff {data : Chars} {size : Nat} (hsize : size ≤ 8) :
    (∀ uninitialised, ByteOrdersAgree uninitialised data size ↔
      uninitialised.toNat = bigEndianValue data size) ∧
    (¬ ∀ uninitialised, ByteOrdersAgree uninitialised data size) ∧
    ∀ uninitialised uninitialised',
      parseHeaderOnBigEndianHost uninitialised uninitialised' data = parseHeader data ↔
        uninitialised.toNat % 2 ^ 16 = bigEndianValue (data.addressOf 1) 2 % 2 ^ 16 ∧
          uninitialised'.toNat = bigEndianValue (data.addressOf 5) 6 :=
  ⟨fun _ => byteOrdersAgree_iff_local hsize, not_forall_byteOrdersAgree hsize,
    fun _ _ => parseHeaderOnBigEndianHost_eq_iff⟩

/-- The local of an earlier call may still be there: reading 13 a second time is right. -/
theorem byte_orders_agree_left_over : ByteOrdersAgree 13 (Chars.ofList [0, 13]) 2 :=
  ((byte_orders_agree_iff (by decide)).1 13).2 (by decide)

/-- **Nothing is copied.** Of the bytes 0 and 13 the loop makes 13, and a local that holds 0 stays
0; so does the stock locate of a header. -/
theorem byte_orders_disagree :
    let data := Chars.ofList [0, 13]
    let header := Chars.ofList [65, 0, 13, 0, 0, 0, 0, 0, 0, 0, 0]
    (toHostEndianUpTo64 data 2 = 13 ∧ toHostEndianUpTo64OnBigEndianHost 0 data 2 = 0 ∧
      bigEndianValue data 2 = 13 ∧ ¬ ByteOrdersAgree 0 data 2) ∧
    (parseHeader header).stockLocate = 13 ∧
      (parseHeaderOnBigEndianHost 0 0 header).stockLocate = 0 := by
  refine ⟨⟨by decide, rfl, by decide, ?_⟩, by decide, rfl⟩
  intro h
  exact absurd h.2 (by decide)

end NasdaqItch
