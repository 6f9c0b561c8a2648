import Agave.Sdk.VarInt

/-!
# `ShortU16`

`short-vec/src/lib.rs`. The length of a short vector is a `u16` written in one to three bytes,
seven bits at a time with a continuation bit, the third byte holding the top two bits. Its reader
is byte by byte (`visit_byte`) and rejects, each with its own error, a zero byte after the first
(an alias), a continuation bit on the third byte, and a value past `u16::MAX`.

The writer is the `serde_varint` writer (`ShortU16.serialize_eq`), and the reader accepts exactly
its bytes of a `u16` (`ShortU16.visitSeq_eq_ok_iff`), as the `u16` reader of `serde_varint` does
(`VarInt.visitSeq_eq_ok_iff`): the two formats are one.
-/

namespace Agave.ShortVec

open VarInt

/-- `MAX_ENCODING_LENGTH`. -/
def MAX_ENCODING_LENGTH : Nat := 3

/-- `VisitStatus`. -/
inductive VisitStatus where
  | done (val : Nat)
  | more (val : Nat)
  deriving DecidableEq, Repr

/-- `VisitError`. -/
inductive VisitError where
  | tooLong (len : Nat)
  | tooShort (len : Nat)
  | overflow (val : Nat)
  | alias
  | byteThreeContinues
  deriving DecidableEq, Repr

/-- `visit_byte`: the `nth_byte`-th byte `elem` of an encoding, on the value `val` read so far;
the shift is in `u32`. -/
def visitByte (elem : UInt8) (val nthByte : Nat) : Except VisitError VisitStatus :=
  if elem = 0 ∧ nthByte ≠ 0 then .error .alias
  else
    let elemVal := elem.toNat &&& 0x7f
    let elemDone := elem.toNat &&& 0x80 = 0
    if nthByte ≥ MAX_ENCODING_LENGTH then .error (.tooLong (saturatingAdd USIZE_MAX nthByte 1))
    else if nthByte = MAX_ENCODING_LENGTH - 1 ∧ ¬ elemDone then .error .byteThreeContinues
    else
      -- `u32::try_from(nth_byte).unwrap_or(u32::MAX).saturating_mul(7)`
      let shift := min (min nthByte U32_MAX * 7) U32_MAX
      -- `checked_shl(shift).unwrap_or(u32::MAX)`
      let elemVal := if shift < 32 then (elemVal <<< shift) % 2 ^ 32 else U32_MAX
      let newVal := val ||| elemVal
      if newVal < 2 ^ 16 then
        if elemDone then .ok (.done newVal) else .ok (.more newVal)
      else .error (.overflow newVal)

namespace ShortU16

/-- `ShortU16::serialize`. -/
def serialize (remVal : Nat) : List UInt8 :=
  let elem := remVal &&& 0x7f
  if remVal >>> 7 = 0 then [UInt8.ofNat elem]
  else UInt8.ofNat (elem ||| 0x80) :: serialize (remVal >>> 7)
termination_by remVal
decreasing_by
  rename_i h
  rw [Nat.shiftRight_eq_div_pow] at h ⊢
  omega

/-- The loop of `ShortU16Visitor::visit_seq`, from the value `val` read so far and the index
`nthByte` of the next byte. -/
def visitSeqFrom (val nthByte : Nat) : List UInt8 → Except VisitError (Nat × List UInt8)
  | [] =>
    if nthByte < MAX_ENCODING_LENGTH then .error (.tooShort (saturatingAdd USIZE_MAX nthByte 1))
    else .error .byteThreeContinues
  | elem :: rest =>
    if nthByte < MAX_ENCODING_LENGTH then
      match visitByte elem val nthByte with
      | .error e => .error e
      | .ok (.done newVal) => .ok (newVal, rest)
      | .ok (.more newVal) => visitSeqFrom newVal (nthByte + 1) rest
    else .error .byteThreeContinues

/-- `ShortU16Visitor::visit_seq`: the value and the bytes after it. -/
def visitSeq (bytes : List UInt8) : Except VisitError (Nat × List UInt8) :=
  visitSeqFrom 0 0 bytes

/-! ## One byte -/

/-- The shift of the `nth_byte`-th byte, for the three bytes there are. -/
theorem shift_of_lt {nthByte : Nat} (h : nthByte < 3) :
    min (min nthByte U32_MAX * 7) U32_MAX = 7 * nthByte := by
  simp only [U32_MAX]
  omega

theorem pow_shift_le {nthByte : Nat} (h : nthByte < 3) : 2 ^ (7 * nthByte) ≤ 2 ^ 14 :=
  Nat.pow_le_pow_right (by norm_num) (by omega)

/-- A last byte adds its value at its shift, unless it is a zero after the first byte or the sum
is past `u16::MAX`. -/
theorem visitByte_of_lt {elem : UInt8} {val nthByte : Nat} (hn : elem.toNat < 128)
    (hnth : nthByte < 3) (hval : val < 2 ^ (7 * nthByte)) :
    visitByte elem val nthByte =
      if elem = 0 ∧ nthByte ≠ 0 then .error .alias
      else if val + elem.toNat * 2 ^ (7 * nthByte) < 2 ^ 16 then
        .ok (.done (val + elem.toNat * 2 ^ (7 * nthByte)))
      else .error (.overflow (val + elem.toNat * 2 ^ (7 * nthByte))) := by
  have hdone : elem.toNat &&& 0x80 = 0 := by
    rw [and_0x80_of_lt elem.toNat_lt]
    omega
  have hlow : elem.toNat &&& 0x7f = elem.toNat := by
    rw [show (0x7f : Nat) = 2 ^ 7 - 1 from rfl, Nat.and_two_pow_sub_one_eq_mod,
      Nat.mod_eq_of_lt hn]
  have hpow := pow_shift_le hnth
  have hfit : elem.toNat * 2 ^ (7 * nthByte) < 2 ^ 32 := by
    calc elem.toNat * 2 ^ (7 * nthByte) < 128 * 2 ^ 14 :=
          Nat.mul_lt_mul_of_lt_of_le hn hpow (Nat.two_pow_pos _)
      _ ≤ 2 ^ 32 := by norm_num
  unfold visitByte
  split
  · rfl
  · dsimp only
    rw [if_neg (by unfold MAX_ENCODING_LENGTH; omega), if_neg (by rintro ⟨-, h⟩; exact h hdone),
      shift_of_lt hnth, if_pos (show 7 * nthByte < 32 by omega), hlow, or_byte_of_fit hval hfit]
    simp only [hdone, if_true]

/-- A byte with the continuation bit, among the first two, adds its seven bits and asks for
more. -/
theorem visitByte_of_ge {elem : UInt8} {val nthByte : Nat} (hn : 128 ≤ elem.toNat)
    (hnth : nthByte < 2) (hval : val < 2 ^ (7 * nthByte)) :
    visitByte elem val nthByte = .ok (.more (val + elem.toNat % 128 * 2 ^ (7 * nthByte))) := by
  have hb := elem.toNat_lt
  have hmore : ¬ elem.toNat &&& 0x80 = 0 := by
    rw [and_0x80_of_lt hb]
    omega
  have hne : ¬ (elem = 0 ∧ nthByte ≠ 0) := by
    rintro ⟨rfl, -⟩
    simp at hn
  have hlow : elem.toNat &&& 0x7f = elem.toNat % 128 :=
    Nat.and_two_pow_sub_one_eq_mod elem.toNat 7
  have hpow : 2 ^ (7 * nthByte) ≤ 2 ^ 7 := Nat.pow_le_pow_right (by norm_num) (by omega)
  have hlt : elem.toNat % 128 * 2 ^ (7 * nthByte) ≤ 127 * 2 ^ 7 :=
    Nat.mul_le_mul (by omega) hpow
  unfold visitByte
  rw [if_neg hne]
  dsimp only
  rw [if_neg (by unfold MAX_ENCODING_LENGTH; omega), if_neg (by unfold MAX_ENCODING_LENGTH; omega),
    shift_of_lt (by omega), if_pos (show 7 * nthByte < 32 by omega), hlow,
    or_byte_of_fit hval (show elem.toNat % 128 * 2 ^ (7 * nthByte) < 2 ^ 32 by omega),
    if_pos (show val + elem.toNat % 128 * 2 ^ (7 * nthByte) < 2 ^ 16 by omega), if_neg hmore]

/-- The third byte may not ask for more. -/
theorem visitByte_two_of_ge {elem : UInt8} (hn : 128 ≤ elem.toNat) (val : Nat) :
    visitByte elem val 2 = .error .byteThreeContinues := by
  have hmore : ¬ elem.toNat &&& 0x80 = 0 := by
    rw [and_0x80_of_lt elem.toNat_lt]
    omega
  have hne : ¬ (elem = 0 ∧ 2 ≠ 0) := by
    rintro ⟨rfl, -⟩
    simp at hn
  unfold visitByte
  rw [if_neg hne]
  simp [MAX_ENCODING_LENGTH, hmore]

/-! ## The reader against the writer -/

theorem pow_shift_succ (nthByte : Nat) : 2 ^ (7 * (nthByte + 1)) = 2 ^ (7 * nthByte) * 128 := by
  rw [Nat.mul_succ, Nat.pow_add]

/-- The reader's loop reads back the writer's bytes of any value that, laid at the shift of the
`nth_byte`-th byte above what was read, leaves a `u16`; a zero value only from the first byte. -/
theorem visitSeqFrom_serialize (value : Nat) :
    ∀ (val nthByte : Nat) (rest : List UInt8), nthByte < 3 → val < 2 ^ (7 * nthByte) →
      val + value * 2 ^ (7 * nthByte) < 2 ^ 16 → (value = 0 → nthByte = 0) →
      visitSeqFrom val nthByte (VarInt.serialize value ++ rest) =
        .ok (val + value * 2 ^ (7 * nthByte), rest) := by
  induction value using Nat.strong_induction_on with
  | _ value ih =>
  intro val nthByte rest hnth hval hfit hzero
  rcases Nat.lt_or_ge value 128 with hlt | hge
  · -- the last byte: no alias, since only a zero value from the first byte has a zero byte
    have hbyte : (UInt8.ofNat value).toNat = value := toNat_ofNat_of_lt (by omega)
    have halias : ¬ (UInt8.ofNat value = 0 ∧ nthByte ≠ 0) := by
      rintro ⟨h0, hne⟩
      have hv : value = 0 := by rw [← hbyte, h0]; rfl
      exact hne (hzero hv)
    rw [VarInt.serialize_of_lt hlt, List.singleton_append, visitSeqFrom,
      if_pos (show nthByte < MAX_ENCODING_LENGTH from hnth),
      visitByte_of_lt (by rwa [hbyte]) hnth hval, if_neg halias, hbyte, if_pos hfit]
  · -- a continuation byte, which the bound keeps off the third byte
    have hnth2 : nthByte < 2 := by
      by_contra h
      have h2 : nthByte = 2 := by omega
      subst h2
      have : 128 * 2 ^ 14 ≤ value * 2 ^ (7 * 2) := Nat.mul_le_mul_right _ hge
      omega
    have hbyte : (UInt8.ofNat (value % 128 + 128)).toNat = value % 128 + 128 :=
      toNat_ofNat_of_lt (by omega)
    have hpow := pow_shift_succ nthByte
    have hsum := mod_mul_add_div_mul value (2 ^ (7 * nthByte))
    have hlow : value % 128 * 2 ^ (7 * nthByte) ≤ 127 * 2 ^ (7 * nthByte) :=
      Nat.mul_le_mul_right _ (by omega)
    have hrest := ih (value / 128) (by omega) (val + value % 128 * 2 ^ (7 * nthByte))
      (nthByte + 1) rest (by omega) (by rw [hpow]; omega)
      (by rw [hpow]; omega) (fun _ => by omega)
    rw [VarInt.serialize_of_ge hge, List.cons_append, visitSeqFrom,
      if_pos (show nthByte < MAX_ENCODING_LENGTH by unfold MAX_ENCODING_LENGTH; omega),
      visitByte_of_ge (by rw [hbyte]; omega) hnth2 hval, hbyte, Nat.add_mod_right,
      Nat.mod_mod]
    dsimp only
    rw [hrest, hpow]
    congr 2
    omega

/-- Whatever the reader's loop accepts is the writer's bytes of a value, laid at the shift of the
`nth_byte`-th byte above what was read, followed by the bytes it did not read; a zero value only
from the first byte. -/
theorem exists_of_visitSeqFrom_eq_ok :
    ∀ {bytes : List UInt8} {val nthByte res : Nat} {rest : List UInt8},
      visitSeqFrom val nthByte bytes = .ok (res, rest) → val < 2 ^ (7 * nthByte) →
      ∃ value, res = val + value * 2 ^ (7 * nthByte) ∧ res < 2 ^ 16 ∧
        bytes = VarInt.serialize value ++ rest ∧ (value = 0 → nthByte = 0) := by
  intro bytes
  induction bytes with
  | nil =>
    intro val nthByte res rest h _
    simp only [visitSeqFrom] at h
    split at h <;> cases h
  | cons elem tail ih =>
    intro val nthByte res rest h hval
    have hb := elem.toNat_lt
    simp only [visitSeqFrom] at h
    split at h
    · rename_i hnth
      unfold MAX_ENCODING_LENGTH at hnth
      rcases Nat.lt_or_ge elem.toNat 128 with hlt | hge
      · -- the last byte
        rw [visitByte_of_lt hlt hnth hval] at h
        by_cases halias : elem = 0 ∧ nthByte ≠ 0
        · rw [if_pos halias] at h
          cases h
        · rw [if_neg halias] at h
          by_cases hfit : val + elem.toNat * 2 ^ (7 * nthByte) < 2 ^ 16
          · rw [if_pos hfit] at h
            obtain ⟨rfl, rfl⟩ := Prod.mk.inj (Except.ok.inj h)
            refine ⟨elem.toNat, rfl, hfit, ?_, fun h0 => ?_⟩
            · rw [VarInt.serialize_of_lt hlt, UInt8.ofNat_toNat, List.singleton_append]
            · by_contra hne
              exact halias ⟨UInt8.toNat_inj.mp (by rw [h0]; rfl), hne⟩
          · rw [if_neg hfit] at h
            cases h
      · -- a continuation byte, only before the third
        rcases Nat.lt_or_ge nthByte 2 with hnth2 | hnth2
        · rw [visitByte_of_ge hge hnth2 hval] at h
          have hpow := pow_shift_succ nthByte
          have hlow : elem.toNat % 128 * 2 ^ (7 * nthByte) ≤ 127 * 2 ^ (7 * nthByte) :=
            Nat.mul_le_mul_right _ (by omega)
          obtain ⟨value, hres, hfit, htail, hzero⟩ :=
            ih h (by rw [hpow]; omega)
          have hvpos : 0 < value := Nat.pos_of_ne_zero (fun h0 => by have := hzero h0; omega)
          have hsum := mod_mul_add_div_mul (elem.toNat % 128 + 128 * value) (2 ^ (7 * nthByte))
          have hdiv : (elem.toNat % 128 + 128 * value) / 128 = value := by omega
          have hmod : (elem.toNat % 128 + 128 * value) % 128 = elem.toNat % 128 := by omega
          rw [hdiv, hmod] at hsum
          refine ⟨elem.toNat % 128 + 128 * value, ?_, hfit, ?_, fun h0 => by omega⟩
          · rw [hres, hpow, Nat.add_assoc, hsum]
          · have hbyte : UInt8.ofNat (elem.toNat % 128 + 128) = elem := by
              rw [show elem.toNat % 128 + 128 = elem.toNat by omega, UInt8.ofNat_toNat]
            rw [VarInt.serialize_of_ge (by omega), List.cons_append, htail, hdiv, hmod, hbyte]
        · have h2 : nthByte = 2 := by omega
          subst h2
          rw [visitByte_two_of_ge hge] at h
          cases h
    · cases h

/-- The reader accepts exactly the writer's bytes of a `u16`, and returns it and what follows. -/
theorem visitSeq_eq_ok_iff {bytes : List UInt8} {value : Nat} {rest : List UInt8} :
    visitSeq bytes = .ok (value, rest) ↔ value < 2 ^ 16 ∧ bytes = VarInt.serialize value ++ rest := by
  constructor
  · intro h
    obtain ⟨v, hres, hfit, hbytes, -⟩ := exists_of_visitSeqFrom_eq_ok h (Nat.two_pow_pos _)
    simp only [Nat.mul_zero, Nat.pow_zero, Nat.mul_one, Nat.zero_add] at hres
    subst hres
    exact ⟨hfit, hbytes⟩
  · rintro ⟨hfit, rfl⟩
    have h := visitSeqFrom_serialize value 0 0 rest (by norm_num)
      (Nat.two_pow_pos _) (by simpa using hfit) (fun _ => rfl)
    simpa [visitSeq] using h

/-- The writer is the `serde_varint` one. -/
theorem serialize_eq (value : Nat) : serialize value = VarInt.serialize value := by
  induction value using Nat.strong_induction_on with
  | _ value ih =>
  rw [serialize]
  split
  · rename_i h
    rw [Nat.shiftRight_eq_div_pow] at h
    have hlt : value < 128 := by omega
    rw [VarInt.serialize_of_lt hlt, Nat.and_two_pow_sub_one_eq_mod value 7, Nat.mod_eq_of_lt hlt]
  · rename_i h
    rw [Nat.shiftRight_eq_div_pow] at h
    rw [VarInt.serialize, if_pos (by omega), ih _ (by rw [Nat.shiftRight_eq_div_pow]; omega)]

end ShortU16

theorem varint_canonical_bijection :
    (∀ bits ∈ [16, 32, 64], ∀ value < 2 ^ bits, ∀ rest : List UInt8,
      VarInt.visitSeq bits (VarInt.serialize value ++ rest) = .ok (value, rest)) ∧
    (∀ bits ∈ [16, 32, 64], ∀ bytes value rest, VarInt.visitSeq bits bytes = .ok (value, rest) →
      value < 2 ^ bits ∧ bytes = VarInt.serialize value ++ rest) ∧
    (∀ bytes value rest,
      VarInt.visitSeq 16 bytes = .ok (value, rest) ↔ ShortU16.visitSeq bytes = .ok (value, rest)) := by
  have hpos : ∀ bits ∈ [16, 32, 64], 0 < bits := by
    intro bits hbits
    simp only [List.mem_cons, List.not_mem_nil, or_false] at hbits
    omega
  refine ⟨fun bits hbits value hvalue rest => ?_, fun bits hbits bytes value rest h => ?_,
    fun bytes value rest => ?_⟩
  · exact (VarInt.visitSeq_eq_ok_iff (hpos bits hbits)).mpr ⟨hvalue, rfl⟩
  · exact (VarInt.visitSeq_eq_ok_iff (hpos bits hbits)).mp h
  · rw [VarInt.visitSeq_eq_ok_iff (by norm_num), ShortU16.visitSeq_eq_ok_iff]

end Agave.ShortVec
