import Mathlib.Data.List.Basic

/-!
# Input streams and buffers

`std::istream::read` into a raw buffer. On a good stream it copies what it is asked for, or, at
the end, what is left, and then the stream fails; on a failed stream it copies nothing. The bytes
of the buffer that are not copied over keep their old values.

A `const char*` is the function from offsets to bytes. `Chars.upTo` cuts it down to a length: a
function of the bytes that reads no further does not see the difference, which `rfl` can check.
-/

/-- What a `const char*` points to. -/
abbrev Chars := Nat → UInt8

namespace Chars

/-- `&data[offset]`. -/
def addressOf (data : Chars) (offset : Nat) : Chars := fun i => data (offset + i)

/-- A list of bytes, with zeros behind it. -/
def ofList (bytes : List UInt8) : Chars := fun i => bytes[i]?.getD 0

/-- The buffer after `bytes` were copied to `&buffer[offset]`. -/
def copy (buffer : Chars) (offset : Nat) (bytes : List UInt8) : Chars :=
  fun i => if i < offset then buffer i else bytes[i - offset]?.getD (buffer i)

/-- The first `n` bytes, with zeros behind them. -/
def upTo (data : Chars) (n : Nat) : Chars := fun i => if i < n then data i else 0

variable {data data' buffer : Chars} {n offset i : Nat} {bytes : List UInt8}

theorem upTo_of_lt (h : i < n) : data.upTo n i = data i := if_pos h

theorem upTo_congr (h : ∀ i < n, data i = data' i) : data.upTo n = data'.upTo n := by
  funext i
  unfold upTo
  split_ifs with hi
  · exact h i hi
  · rfl

theorem copy_of_lt (h : i < offset) : buffer.copy offset bytes i = buffer i := if_pos h

@[simp] theorem copy_nil (buffer : Chars) (offset : Nat) : buffer.copy offset [] = buffer := by
  funext i
  unfold copy
  split_ifs <;> rfl

theorem copy_zero : buffer.copy 0 bytes i = bytes[i]?.getD (buffer i) := rfl

theorem ofList_append_add (bytes bytes' : List UInt8) (i : Nat) :
    ofList (bytes ++ bytes') (bytes.length + i) = ofList bytes' i := by
  unfold ofList
  rw [List.getElem?_append_right (Nat.le_add_right _ _), Nat.add_sub_cancel_left]

theorem copy_offset_add (h : i < bytes.length) :
    buffer.copy offset bytes (offset + i) = ofList bytes i := by
  unfold copy ofList
  rw [if_neg (Nat.not_lt.2 (Nat.le_add_right offset i)), Nat.add_sub_cancel_left,
    List.getElem?_eq_getElem h, Option.getD_some, Option.getD_some]

theorem copy_of_ge (h : offset + bytes.length ≤ i) : buffer.copy offset bytes i = buffer i := by
  unfold copy
  rw [if_neg (by omega), List.getElem?_eq_none (by omega), Option.getD_none]

theorem copy_congr (h : data i = data' i) :
    data.copy offset bytes i = data'.copy offset bytes i := by
  unfold copy
  rw [h]

theorem copy_copy (buffer : Chars) (bytes bytes' : List UInt8) :
    (buffer.copy 0 bytes).copy bytes.length bytes' = buffer.copy 0 (bytes ++ bytes') := by
  funext i
  rw [copy_zero]
  by_cases hi : i < bytes.length
  · rw [copy_of_lt hi, copy_zero, List.getElem?_append_left hi]
  · have hlength : bytes.length ≤ i := Nat.not_lt.1 hi
    rw [copy, if_neg hi, copy_zero, List.getElem?_append_right hlength,
      List.getElem?_eq_none hlength, Option.getD_none]

end Chars

/-- The bytes not yet read, and whether the stream has failed. -/
structure Istream where
  rest : List UInt8
  failed : Bool := false
  deriving DecidableEq, Repr

namespace Istream

/-- `file.read(..., n)`: the stream afterwards, and the bytes it copied. -/
def read (file : Istream) (n : Nat) : Istream × List UInt8 :=
  if file.failed then (file, [])
  else if n ≤ file.rest.length then ({ file with rest := file.rest.drop n }, file.rest.take n)
  else (⟨[], true⟩, file.rest)

/-- A bound for the reads that can still go well. -/
def size (file : Istream) : Nat := if file.failed then 0 else file.rest.length + 1

variable {file : Istream} {n : Nat} {bytes rest : List UInt8}

theorem read_failed (h : file.failed = true) : file.read n = (file, []) := if_pos h

theorem read_append (h : bytes.length = n) :
    (⟨bytes ++ rest, false⟩ : Istream).read n = (⟨rest, false⟩, bytes) := by
  subst h
  unfold read
  simp

theorem read_short (h : rest.length < n) :
    (⟨rest, false⟩ : Istream).read n = (⟨[], true⟩, rest) := by
  unfold read
  rw [if_neg Bool.false_ne_true, if_neg (Nat.not_le.2 h)]

theorem length_read_le (file : Istream) (n : Nat) : (file.read n).2.length ≤ n := by
  unfold read
  split_ifs with hfailed hle
  · exact Nat.zero_le n
  · exact List.length_take_le n _
  · exact Nat.le_of_not_le hle

theorem size_read_le (file : Istream) (n : Nat) : (file.read n).1.size ≤ file.size := by
  unfold read size
  split_ifs <;> simp_all

theorem size_read_lt (h : file.failed = false) (hn : 0 < n) :
    (file.read n).1.size < file.size := by
  unfold read size
  rw [h]
  split_ifs with hle <;> simp_all
  omega

end Istream
