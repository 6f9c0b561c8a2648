import Mathlib.Data.List.Basic
import Mathlib.Data.BitVec

/-!
# Fixed-width integers as bytes

An unsigned integer `w` bytes wide written least significant byte first (`to_le_bytes`, the
layout `bincode` uses) or most significant first (a 32-byte key read as one word), and read
back. Reading what was written gives the value back modulo the width (`leDecode_leEncode`,
`beDecode_beEncode`), whatever follows it (`readLe_leEncode`). A run of values of one width laid
end to end is read back one width at a time (`decodeChunks_flatMap`).
-/

namespace ByteCodec

variable {α : Type}

/-- The `w` bytes of `n`, least significant first. -/
def leEncode (w n : Nat) : List UInt8 :=
  (List.range w).map fun i => (n / 2 ^ (8 * i) % 256).toUInt8

/-- The number the bytes spell, least significant first. -/
def leDecode (bytes : List UInt8) : Nat :=
  bytes.foldr (fun b acc => b.toNat + 256 * acc) 0

/-- The `w` bytes of `n`, most significant first. -/
def beEncode (w n : Nat) : List UInt8 :=
  (List.range w).map fun i => (n / 2 ^ (8 * (w - 1 - i)) % 256).toUInt8

/-- The number the bytes spell, most significant first. -/
def beDecode (bytes : List UInt8) : Nat :=
  bytes.foldl (fun acc b => acc * 256 + b.toNat) 0

/-- Read a `w`-byte little-endian integer off the front, or fail when fewer bytes are left. -/
def readLe (w : Nat) (bytes : List UInt8) : Option (Nat × List UInt8) :=
  if w ≤ bytes.length then some (leDecode (bytes.take w), bytes.drop w) else none

/-- Read `count` values of `width` bytes each, one after another. -/
def decodeChunks (width : Nat) (decode : List UInt8 → α) : Nat → List UInt8 → List α
  | 0, _ => []
  | count + 1, bytes => decode (bytes.take width) :: decodeChunks width decode count (bytes.drop width)

@[simp] theorem length_leEncode (w n : Nat) : (leEncode w n).length = w := by
  simp [leEncode]

@[simp] theorem length_beEncode (w n : Nat) : (beEncode w n).length = w := by
  simp [beEncode]

theorem toNat_toUInt8_mod (n : Nat) : (n % 256).toUInt8.toNat = n % 256 := by
  simp [Nat.toUInt8]

/-- One more byte of width is one more factor of 256. -/
theorem two_pow_eight_mul_succ (w : Nat) : 2 ^ (8 * (w + 1)) = 256 * 2 ^ (8 * w) := by
  rw [Nat.mul_succ, Nat.pow_add, Nat.mul_comm]

/-- The low byte comes first, then the rest of the value one width down. -/
theorem leEncode_succ (w n : Nat) :
    leEncode (w + 1) n = (n % 256).toUInt8 :: leEncode w (n / 256) := by
  simp only [leEncode, List.range_succ_eq_map, List.map_cons, List.map_map]
  refine congrArg₂ List.cons (by simp) (List.map_congr_left fun i _ => ?_)
  simp only [Function.comp, Nat.succ_eq_add_one, two_pow_eight_mul_succ, Nat.div_div_eq_div_mul]

/-- The high bytes come first: they are the bytes of the value one width down. -/
theorem beEncode_succ (w n : Nat) :
    beEncode (w + 1) n = beEncode w (n / 256) ++ [(n % 256).toUInt8] := by
  simp only [beEncode, List.range_succ, List.map_append, List.map_cons, List.map_nil,
    Nat.add_sub_cancel, Nat.sub_self, Nat.mul_zero, Nat.pow_zero, Nat.div_one]
  refine congrArg (· ++ _) (List.map_congr_left fun i hi => ?_)
  -- byte `i < w` sits one place further from the low end in the wider encoding
  have hlt : i < w := List.mem_range.mp hi
  have hshift : w - i = (w - 1 - i) + 1 := by omega
  rw [hshift, two_pow_eight_mul_succ, ← Nat.div_div_eq_div_mul]

theorem leDecode_leEncode (w n : Nat) : leDecode (leEncode w n) = n % 2 ^ (8 * w) := by
  -- the value shrinks by a factor of 256 at every byte, so it stays quantified over
  induction w generalizing n with
  | zero => simp [leEncode, leDecode, Nat.mod_one]
  | succ w ih =>
    have hrest : leDecode (leEncode w (n / 256)) = n / 256 % 2 ^ (8 * w) := ih (n / 256)
    simp only [leEncode_succ, leDecode, List.foldr_cons] at hrest ⊢
    rw [hrest, toNat_toUInt8_mod, two_pow_eight_mul_succ, Nat.mod_mul]

theorem beDecode_append_singleton (bytes : List UInt8) (b : UInt8) :
    beDecode (bytes ++ [b]) = beDecode bytes * 256 + b.toNat := by
  simp [beDecode, List.foldl_append]

theorem beDecode_beEncode (w n : Nat) : beDecode (beEncode w n) = n % 2 ^ (8 * w) := by
  induction w generalizing n with
  | zero => simp [beEncode, beDecode, Nat.mod_one]
  | succ w ih =>
    rw [beEncode_succ, beDecode_append_singleton, ih, toNat_toUInt8_mod,
      two_pow_eight_mul_succ, Nat.mod_mul]
    omega

/-- A value read back from its encoding, whatever follows it. -/
theorem readLe_leEncode (w n : Nat) (rest : List UInt8) :
    readLe w (leEncode w n ++ rest) = some (n % 2 ^ (8 * w), rest) := by
  simp [readLe, leDecode_leEncode]

theorem readLe_leEncode_of_lt {w n : Nat} (h : n < 2 ^ (8 * w)) (rest : List UInt8) :
    readLe w (leEncode w n ++ rest) = some (n, rest) := by
  rw [readLe_leEncode, Nat.mod_eq_of_lt h]

/-- Values of one width laid end to end are read back one width at a time. -/
theorem decodeChunks_flatMap {width : Nat} {encode : α → List UInt8}
    {decode : List UInt8 → α} (hlen : ∀ x, (encode x).length = width)
    (hdec : ∀ x, decode (encode x) = x) (xs : List α) (rest : List UInt8) :
    decodeChunks width decode xs.length (xs.flatMap encode ++ rest) = xs := by
  induction xs with
  | nil => rfl
  | cons x xs ih =>
    have htake : (encode x ++ (xs.flatMap encode ++ rest)).take width = encode x :=
      List.take_left' (hlen x)
    have hdrop : (encode x ++ (xs.flatMap encode ++ rest)).drop width =
        xs.flatMap encode ++ rest := List.drop_left' (hlen x)
    simp only [List.length_cons, List.flatMap_cons, List.append_assoc, decodeChunks, htake,
      hdrop, hdec, ih]

end ByteCodec
