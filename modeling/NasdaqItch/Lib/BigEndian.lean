import Mathlib.Algebra.BigOperators.Ring.Finset
import Mathlib.Data.List.Basic
import Mathlib.Data.Nat.Bitwise
import Mathlib.Tactic.Ring

/-!
# Big-endian numbers

A number in a fixed number of bytes, the most significant first, and two ways to read it back:
`value`, a fold over the bytes, and `orShift`, the loop that shifts every byte into its place in a
64-bit word. Up to eight bytes the two agree (`orShift_toNat`).
-/

namespace BigEndian

/-- The number in `n` bytes, modulo what fits into them. -/
def encode : Nat → Nat → List UInt8
  | 0, _ => []
  | n + 1, v => encode n (v / 256) ++ [UInt8.ofNat v]

/-- The number that the bytes stand for. -/
def value (bytes : List UInt8) : Nat := bytes.foldl (fun v byte => v * 256 + byte.toNat) 0

/-- The loop over the first `size` bytes of `data`, after its first `k` rounds. -/
def orShift (data : Nat → UInt8) (size k : Nat) : UInt64 :=
  (List.range k).foldl
    (fun result i => result ||| (data i).toUInt64 <<< (UInt64.ofNat ((size - 1 - i) * 8))) 0

@[simp] theorem length_encode (n v : Nat) : (encode n v).length = n := by
  induction n generalizing v with
  | zero => rfl
  | succ n ih => rw [encode, List.length_append, ih, List.length_singleton]

theorem value_concat (bytes : List UInt8) (byte : UInt8) :
    value (bytes ++ [byte]) = value bytes * 256 + byte.toNat := List.foldl_concat ..

theorem value_eq_sum (data : Nat → UInt8) (n : Nat) :
    value ((List.range n).map data) =
      ∑ i ∈ Finset.range n, (data i).toNat * 256 ^ (n - 1 - i) := by
  induction n with
  | zero => rfl
  | succ n ih =>
      have hplace : ∀ i ∈ Finset.range n, (data i).toNat * 256 ^ (n - i) =
          (data i).toNat * 256 ^ (n - 1 - i) * 256 := by
        intro i hi
        have hsucc : n - i = n - 1 - i + 1 := by
          have := Finset.mem_range.1 hi
          omega
        rw [hsucc, Nat.pow_succ, Nat.mul_assoc]
      rw [List.range_succ, List.map_append, List.map_singleton, value_concat, ih,
        Finset.sum_range_succ, Nat.add_sub_cancel, Finset.sum_congr rfl hplace, Finset.sum_mul,
        Nat.sub_self, Nat.pow_zero, Nat.mul_one]

theorem value_encode (n v : Nat) : value (encode n v) = v % 256 ^ n := by
  induction n generalizing v with
  | zero => exact (Nat.mod_one v).symm
  | succ n ih =>
      have hlow : (UInt8.ofNat v).toNat = v % 256 := UInt8.toNat_ofNat'
      rw [encode, value_concat, ih, hlow, Nat.pow_succ', Nat.mod_mul, Nat.add_comm, Nat.mul_comm]

theorem value_lt (bytes : List UInt8) : value bytes < 256 ^ bytes.length := by
  induction bytes using List.reverseRecOn with
  | nil => exact Nat.one_pos
  | append_singleton bytes byte ih =>
      have hbyte : byte.toNat < 256 := byte.toNat_lt
      rw [value_concat, List.length_append, List.length_singleton, Nat.pow_succ]
      omega

/-- **Encoding undoes decoding**: the bytes are those of their number. -/
theorem encode_value (bytes : List UInt8) : encode bytes.length (value bytes) = bytes := by
  induction bytes using List.reverseRecOn with
  | nil => rfl
  | append_singleton bytes byte ih =>
      have hbyte : byte.toNat < 256 := byte.toNat_lt
      have hrest : (value bytes * 256 + byte.toNat) / 256 = value bytes := by omega
      have hlow : UInt8.ofNat (value bytes * 256 + byte.toNat) = byte := by
        apply UInt8.toNat.inj
        rw [UInt8.toNat_ofNat']
        omega
      rw [List.length_append, List.length_singleton, value_concat, encode, hrest, hlow, ih]

/-- The bytes tell the number, modulo what fits into them. -/
theorem eq_encode_iff {bytes : List UInt8} {n v : Nat} (h : bytes.length = n) :
    bytes = encode n v ↔ value bytes = v % 256 ^ n := by
  subst h
  constructor
  · intro h
    rw [h, length_encode, value_encode]
  · intro h
    have hsame : value (encode bytes.length v) = value bytes := by rw [value_encode, h]
    have hcanonical := encode_value (encode bytes.length v)
    rw [hsame, length_encode, encode_value] at hcanonical
    exact hcanonical

theorem or_eq_add {a b s : Nat} (h : b < 2 ^ s) : a * 2 ^ s ||| b = a * 2 ^ s + b := by
  rw [Nat.mul_comm, Nat.two_pow_add_eq_or_of_lt h]

theorem toNat_shifted {byte : UInt8} {s : Nat} (h : s ≤ 56) :
    (byte.toUInt64 <<< UInt64.ofNat s).toNat = byte.toNat * 2 ^ s := by
  have hbyte : byte.toNat < 2 ^ 8 := byte.toNat_lt
  have hpow : 2 ^ s ≤ 2 ^ 56 := Nat.pow_le_pow_right (by decide) h
  have hfits : byte.toNat * 2 ^ s < 2 ^ 64 := by
    calc byte.toNat * 2 ^ s < 2 ^ 8 * 2 ^ s := Nat.mul_lt_mul_of_pos_right hbyte (Nat.two_pow_pos _)
      _ ≤ 2 ^ 8 * 2 ^ 56 := Nat.mul_le_mul_left _ hpow
      _ = 2 ^ 64 := by decide
  rw [UInt64.toNat_shiftLeft, UInt64.toNat_ofNat', Nat.shiftLeft_eq]
  have hmod : s % 2 ^ 64 % 64 = s := by omega
  rw [hmod]
  exact Nat.mod_eq_of_lt hfits

/-- After `k` rounds the first `k` bytes are in place. -/
theorem orShift_toNat_round {data : Nat → UInt8} {size k : Nat} (hsize : size ≤ 8)
    (hk : k ≤ size) :
    (orShift data size k).toNat = value ((List.range k).map data) * 2 ^ ((size - k) * 8) := by
  induction k with
  | zero => exact (Nat.zero_mul _).symm
  | succ k ih =>
      have hround : orShift data size (k + 1) =
          orShift data size k ||| (data k).toUInt64 <<< UInt64.ofNat ((size - 1 - k) * 8) := by
        unfold orShift
        rw [List.range_succ, List.foldl_concat]
      have hplace : size - k = size - (k + 1) + 1 := by omega
      have hshift : size - 1 - k = size - (k + 1) := by omega
      have hbyte : (data k).toNat * 2 ^ ((size - (k + 1)) * 8) <
          2 ^ ((size - (k + 1)) * 8 + 8) := by
        rw [Nat.pow_add, Nat.mul_comm]
        exact Nat.mul_lt_mul_of_pos_left (data k).toNat_lt (Nat.two_pow_pos _)
      rw [hround, UInt64.toNat_or, ih (Nat.le_of_succ_le hk), hshift, toNat_shifted (by omega),
        hplace, Nat.add_mul, or_eq_add hbyte, List.range_succ, List.map_append, List.map_singleton,
        value_concat]
      ring

/-- **The loop reads the number.** -/
theorem orShift_toNat {data : Nat → UInt8} {size : Nat} (hsize : size ≤ 8) :
    (orShift data size size).toNat = value ((List.range size).map data) := by
  rw [orShift_toNat_round hsize le_rfl, Nat.sub_self, Nat.zero_mul, Nat.pow_zero, Nat.mul_one]

end BigEndian
