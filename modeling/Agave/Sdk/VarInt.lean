import Agave.Sdk.Basic

/-!
# Variable-length integers

`sdk/serde-varint/src/lib.rs`. An unsigned integer is written seven bits at a time, low bits
first, with the top bit of every byte but the last set (LEB128). `impl_var_int!` gives `u16`,
`u32` and `u64` one reader and one writer each, which differ only in `BITS`; here they are one
reader `visitSeq bits` and one writer `serialize`, with the value a `Nat` below `2 ^ bits`.

The reader's loop is `visitSeqFrom`, from the value read so far and the shift of the next byte;
its three checks (a truncated last byte, a zero last byte, a shift past the width) are what make
the encoding canonical. `deserialize` hands the reader a tuple of `(BITS + 6) / 7` bytes, as many
as the loop can read, so the tuple's length is no further bound and the reader here takes the
byte list itself, returning what it has not consumed.

The reader's loop is proved against the writer both ways: it reads back what `serialize` wrote
(`visitSeqFrom_serialize`), and whatever it accepts is what `serialize` writes
(`exists_of_visitSeqFrom_eq_ok`); `visitSeq_eq_ok_iff` joins them.
-/

namespace Agave.VarInt

/-! ## Bytes -/

theorem toNat_and_0x7F (b : UInt8) : (b &&& 0x7F).toNat = b.toNat % 128 := by
  rw [UInt8.toNat_and]
  exact Nat.and_two_pow_sub_one_eq_mod b.toNat 7

/-- The continuation bit of a byte, read as a number. -/
theorem and_0x80_of_lt {n : Nat} (h : n < 256) : n &&& 0x80 = n / 128 * 128 := by
  rw [show (0x80 : Nat) = 2 ^ 7 from rfl, Nat.and_two_pow, Nat.testBit_eq_decide_div_mod_eq]
  rcases Nat.lt_or_ge n 128 with hx | hx
  · have h0 : n / 128 = 0 := by omega
    simp [h0]
  · have h1 : n / 128 = 1 := by omega
    simp [h1]

theorem toNat_and_0x80 (b : UInt8) : (b &&& 0x80).toNat = b.toNat / 128 * 128 := by
  rw [UInt8.toNat_and]
  exact and_0x80_of_lt b.toNat_lt

/-- The continuation bit is clear exactly on the bytes below `0x80`. -/
theorem and_0x80_eq_zero_iff (b : UInt8) : b &&& 0x80 = 0 ↔ b.toNat < 128 := by
  rw [← UInt8.toNat_inj, toNat_and_0x80]
  have hb := b.toNat_lt
  simp only [UInt8.toNat_zero]
  omega

theorem toNat_ofNat_of_lt {n : Nat} (h : n < 256) : (UInt8.ofNat n).toNat = n :=
  UInt8.toNat_ofNat_of_lt' h

/-- Laying `x` above `out`, which fits in `s` bits, adds it. -/
theorem or_shiftLeft_of_lt {out x s : Nat} (h : out < 2 ^ s) :
    out ||| x <<< s = out + x * 2 ^ s := by
  rw [Nat.lor_comm, ← Nat.shiftLeft_add_eq_or_of_lt h, Nat.shiftLeft_eq, Nat.add_comm]

theorem mul_two_pow_mod {x s b : Nat} (h : s ≤ b) :
    x * 2 ^ s % 2 ^ b = x % 2 ^ (b - s) * 2 ^ s := by
  rw [show 2 ^ b = 2 ^ (b - s) * 2 ^ s by rw [← Nat.pow_add, Nat.sub_add_cancel h],
    Nat.mul_mod_mul_right]

/-! ## The writer and the reader -/

/-- `serialize`: seven bits at a time, the continuation bit on all bytes but the last. -/
def serialize (value : Nat) : List UInt8 :=
  if value ≥ 0x80 then UInt8.ofNat ((value &&& 0x7F) ||| 0x80) :: serialize (value >>> 7)
  else [UInt8.ofNat value]
termination_by value
decreasing_by
  rw [Nat.shiftRight_eq_div_pow]
  omega

/-- The loop of `visit_seq` for a type of `bits` bits, from the value `out` read so far and the
`shift` of the next byte. -/
def visitSeqFrom (bits out shift : Nat) : List UInt8 → Except String (Nat × List UInt8)
  | [] => if shift < bits then .error "Invalid Sequence" else .error "Left Shift Overflows"
  | byte :: rest =>
    if shift < bits then
      let out := out ||| ((byte &&& 0x7F).toNat <<< shift) % 2 ^ bits
      if byte &&& 0x80 = 0 then
        if UInt8.ofNat (out >>> shift) ≠ byte then .error "Last Byte Truncated"
        else if byte = 0 ∧ (shift ≠ 0 ∨ out ≠ 0) then .error "Invalid Trailing Zeros"
        else .ok (out, rest)
      else visitSeqFrom bits out (shift + 7) rest
    else .error "Left Shift Overflows"

/-- `visit_seq`: the value and the bytes after it. -/
def visitSeq (bits : Nat) (bytes : List UInt8) : Except String (Nat × List UInt8) :=
  visitSeqFrom bits 0 0 bytes

theorem serialize_of_lt {value : Nat} (h : value < 128) : serialize value = [UInt8.ofNat value] := by
  rw [serialize, if_neg (by omega)]

theorem serialize_of_ge {value : Nat} (h : 128 ≤ value) :
    serialize value = UInt8.ofNat (value % 128 + 128) :: serialize (value / 128) := by
  have hlow : value &&& 0x7F = value % 128 := Nat.and_two_pow_sub_one_eq_mod value 7
  have hcont : value % 128 ||| 0x80 = value % 128 + 128 := by
    have := or_shiftLeft_of_lt (x := 1) (Nat.mod_lt value (show 0 < 2 ^ 7 by norm_num))
    simpa using this
  rw [serialize, if_pos h, hlow, hcont, Nat.shiftRight_eq_div_pow]

example : serialize 300 = [0xAC, 0x02] := by
  rw [serialize_of_ge (by norm_num), serialize_of_lt (by norm_num)]
  rfl

/-- The low seven bits at `p` and the rest seven bits higher make the value at `p`. -/
theorem mod_mul_add_div_mul (value p : Nat) :
    value % 128 * p + value / 128 * (p * 128) = value * p := by
  calc _ = (value % 128 + 128 * (value / 128)) * p := by ring
    _ = value * p := by rw [Nat.mod_add_div]

/-! ## Reading back what was written -/

/-- One byte at `shift` adds its seven bits there when they fit in the width. -/
theorem or_byte_of_fit {bits out shift n : Nat} (hout : out < 2 ^ shift)
    (hfit : n * 2 ^ shift < 2 ^ bits) :
    out ||| (n <<< shift) % 2 ^ bits = out + n * 2 ^ shift := by
  rw [Nat.shiftLeft_eq, Nat.mod_eq_of_lt hfit, ← Nat.shiftLeft_eq, or_shiftLeft_of_lt hout,
    Nat.shiftLeft_eq]

theorem shiftRight_add_mul {out n s : Nat} (h : out < 2 ^ s) : (out + n * 2 ^ s) >>> s = n := by
  rw [Nat.shiftRight_eq_div_pow, Nat.add_mul_div_right _ _ (Nat.two_pow_pos s),
    Nat.div_eq_of_lt h, Nat.zero_add]

/-- The reader's loop reads back the bytes of any value that fits above `shift`, whatever follows
them; a zero value only from the start. -/
theorem visitSeqFrom_serialize {bits : Nat} (hbits : 0 < bits) (value : Nat) :
    ∀ (out shift : Nat) (rest : List UInt8), out < 2 ^ shift → value * 2 ^ shift < 2 ^ bits →
      (value = 0 → shift = 0) →
      visitSeqFrom bits out shift (serialize value ++ rest) =
        .ok (out + value * 2 ^ shift, rest) := by
  induction value using Nat.strong_induction_on with
  | _ value ih =>
  intro out shift rest hout hfit hzero
  have hshift : shift < bits := by
    rcases Nat.eq_zero_or_pos value with h0 | hpos
    · rw [hzero h0]
      exact hbits
    · exact (Nat.pow_lt_pow_iff_right (show 1 < 2 by norm_num)).mp
        (lt_of_le_of_lt (Nat.le_mul_of_pos_left _ hpos) hfit)
  rcases Nat.lt_or_ge value 128 with hlt | hge
  · -- the last byte: no continuation bit, nothing truncated, zero only for zero
    have hbyte : (UInt8.ofNat value).toNat = value := toNat_ofNat_of_lt (by omega)
    have hlast : UInt8.ofNat value &&& 0x80 = 0 := (and_0x80_eq_zero_iff _).mpr (by omega)
    have hlow : (UInt8.ofNat value &&& 0x7F).toNat = value := by
      rw [toNat_and_0x7F, hbyte, Nat.mod_eq_of_lt hlt]
    have hout' := or_byte_of_fit (n := value) hout hfit
    have hcond : ¬ (UInt8.ofNat value = 0 ∧ (shift ≠ 0 ∨ out + value * 2 ^ shift ≠ 0)) := by
      rintro ⟨h0, hne⟩
      have hv : value = 0 := by rw [← hbyte, h0]; rfl
      have hs := hzero hv
      subst hv hs
      omega
    rw [serialize_of_lt hlt, List.singleton_append, visitSeqFrom, if_pos hshift]
    dsimp only
    rw [hlow, if_pos hlast, hout', shiftRight_add_mul hout, if_neg (not_not.mpr rfl),
      if_neg hcond]
  · -- a byte with the continuation bit, then the rest of the value seven bits higher
    have hbyte : (UInt8.ofNat (value % 128 + 128)).toNat = value % 128 + 128 :=
      toNat_ofNat_of_lt (by omega)
    have hmore : ¬ UInt8.ofNat (value % 128 + 128) &&& 0x80 = 0 := by
      rw [and_0x80_eq_zero_iff, hbyte]
      omega
    have hlow : (UInt8.ofNat (value % 128 + 128) &&& 0x7F).toNat = value % 128 := by
      rw [toNat_and_0x7F, hbyte]
      omega
    have hsplit : value = value % 128 + 128 * (value / 128) := (Nat.mod_add_div value 128).symm
    have hpow : 2 ^ (shift + 7) = 2 ^ shift * 128 := by rw [Nat.pow_add]
    have hfit' : value % 128 * 2 ^ shift < 2 ^ bits :=
      lt_of_le_of_lt (Nat.mul_le_mul_right _ (by omega)) hfit
    have hout' := or_byte_of_fit (n := value % 128) hout hfit'
    rw [serialize_of_ge hge, List.cons_append, visitSeqFrom, if_pos hshift]
    simp only [hlow, hmore, if_false, hout']
    have hrest := ih (value / 128) (by omega) (out + value % 128 * 2 ^ shift) (shift + 7) rest
      (show out + value % 128 * 2 ^ shift < 2 ^ (shift + 7) by
        rw [hpow]
        have : value % 128 * 2 ^ shift ≤ 127 * 2 ^ shift := Nat.mul_le_mul_right _ (by omega)
        omega)
      (show value / 128 * 2 ^ (shift + 7) < 2 ^ bits by
        rw [hpow]
        calc value / 128 * (2 ^ shift * 128) = 128 * (value / 128) * 2 ^ shift := by ring
          _ ≤ value * 2 ^ shift := Nat.mul_le_mul_right _ (by omega)
          _ < 2 ^ bits := hfit)
      (fun h => absurd h (by omega))
    rw [hrest, hpow]
    congr 2
    calc out + value % 128 * 2 ^ shift + value / 128 * (2 ^ shift * 128)
        = out + (value % 128 + 128 * (value / 128)) * 2 ^ shift := by ring
      _ = out + value * 2 ^ shift := by rw [← hsplit]

/-! ## Accepting only what is written -/

theorem succ_mul_le_of_mul_lt_of_dvd {v d n : Nat} (h : v * d < n) (hd : d ∣ n) :
    (v + 1) * d ≤ n := by
  obtain ⟨c, rfl⟩ := hd
  have hvc : v < c := Nat.lt_of_mul_lt_mul_left (by rw [Nat.mul_comm] at h; exact h)
  rw [Nat.mul_comm]
  exact Nat.mul_le_mul_left _ hvc

/-- Whatever the reader's loop accepts is the writer's bytes of a value that fits above `shift`,
followed by the bytes it did not read; a zero value only from the start. -/
theorem exists_of_visitSeqFrom_eq_ok {bits : Nat} :
    ∀ {bytes : List UInt8} {out shift res : Nat} {rest : List UInt8},
      visitSeqFrom bits out shift bytes = .ok (res, rest) → out < 2 ^ shift →
      ∃ value, res = out + value * 2 ^ shift ∧ value * 2 ^ shift < 2 ^ bits ∧
        bytes = serialize value ++ rest ∧ (value = 0 → shift = 0) := by
  intro bytes
  induction bytes with
  | nil =>
    intro out shift res rest h _
    simp only [visitSeqFrom] at h
    split at h <;> cases h
  | cons byte tail ih =>
    intro out shift res rest h hout
    have hb := byte.toNat_lt
    simp only [visitSeqFrom] at h
    split at h
    · rename_i hshift
      split at h
      · -- the last byte
        rename_i hlast
        have hlt : byte.toNat < 128 := (and_0x80_eq_zero_iff byte).mp hlast
        rw [toNat_and_0x7F, Nat.mod_eq_of_lt hlt] at h
        split at h
        · cases h
        · rename_i htrunc
          -- the byte read back from above `shift` is the byte: its bits were not cut off
          have hread : UInt8.ofNat ((out ||| (byte.toNat <<< shift) % 2 ^ bits) >>> shift) =
              byte := by simpa using htrunc
          rw [Nat.shiftLeft_eq, mul_two_pow_mod hshift.le, ← Nat.shiftLeft_eq,
            or_shiftLeft_of_lt hout, shiftRight_add_mul hout] at hread
          have hmod : byte.toNat % 2 ^ (bits - shift) = byte.toNat := by
            have h1 := congrArg UInt8.toNat hread
            rw [toNat_ofNat_of_lt (lt_of_le_of_lt (Nat.mod_le _ _) (by omega))] at h1
            exact h1
          have hfit : byte.toNat * 2 ^ shift < 2 ^ bits := by
            have hlt' : byte.toNat < 2 ^ (bits - shift) := by
              rw [← hmod]
              exact Nat.mod_lt _ (Nat.two_pow_pos _)
            calc byte.toNat * 2 ^ shift < 2 ^ (bits - shift) * 2 ^ shift :=
                  Nat.mul_lt_mul_of_pos_right hlt' (Nat.two_pow_pos _)
              _ = 2 ^ bits := by rw [← Nat.pow_add, Nat.sub_add_cancel hshift.le]
          rw [or_byte_of_fit hout hfit] at h
          split at h
          · cases h
          · rename_i hzero
            obtain ⟨rfl, rfl⟩ := Prod.mk.inj (Except.ok.inj h)
            refine ⟨byte.toNat, rfl, hfit, ?_, fun h0 => ?_⟩
            · rw [serialize_of_lt hlt, UInt8.ofNat_toNat, List.singleton_append]
            · by_contra hs
              exact hzero ⟨UInt8.toNat_inj.mp (by rw [h0]; rfl), Or.inl hs⟩
      · -- a byte with the continuation bit: the rest must be read seven bits higher
        rename_i hmore
        have hge : 128 ≤ byte.toNat := by
          rw [and_0x80_eq_zero_iff] at hmore
          omega
        rw [toNat_and_0x7F] at h
        -- the loop goes on only if the next shift is still inside the width
        have hnext : shift + 7 < bits := by
          by_contra hn
          cases tail with
          | nil =>
            simp only [visitSeqFrom, if_neg hn] at h
            cases h
          | cons _ _ =>
            simp only [visitSeqFrom, if_neg hn] at h
            cases h
        have hpow : 2 ^ (shift + 7) = 2 ^ shift * 128 := by rw [Nat.pow_add]
        have hfit : byte.toNat % 128 * 2 ^ shift < 2 ^ bits := by
          calc byte.toNat % 128 * 2 ^ shift < 2 ^ shift * 128 := by
                rw [Nat.mul_comm]
                exact Nat.mul_lt_mul_of_pos_left (Nat.mod_lt _ (by norm_num)) (Nat.two_pow_pos _)
            _ = 2 ^ (shift + 7) := hpow.symm
            _ ≤ 2 ^ bits := Nat.pow_le_pow_right (by norm_num) hnext.le
        rw [or_byte_of_fit hout hfit] at h
        have hout' : out + byte.toNat % 128 * 2 ^ shift < 2 ^ (shift + 7) := by
          rw [hpow]
          have : byte.toNat % 128 * 2 ^ shift ≤ 127 * 2 ^ shift :=
            Nat.mul_le_mul_right _ (by omega)
          omega
        obtain ⟨value, hres, hvfit, htail, hzero⟩ := ih h hout'
        have hvpos : 0 < value := Nat.pos_of_ne_zero (fun h0 => by have := hzero h0; omega)
        refine ⟨byte.toNat % 128 + 128 * value, ?_, ?_, ?_, fun h0 => by omega⟩
        · rw [hres, hpow]
          ring
        · -- the value's next multiple of `2 ^ (shift + 7)` still fits
          have hle := succ_mul_le_of_mul_lt_of_dvd hvfit (Nat.pow_dvd_pow 2 hnext.le)
          calc (byte.toNat % 128 + 128 * value) * 2 ^ shift
              < (128 + 128 * value) * 2 ^ shift :=
                Nat.mul_lt_mul_of_pos_right (by omega) (Nat.two_pow_pos _)
            _ = (value + 1) * 2 ^ (shift + 7) := by rw [hpow]; ring
            _ ≤ 2 ^ bits := hle
        · have hbyte : UInt8.ofNat (byte.toNat % 128 + 128) = byte := by
            rw [show byte.toNat % 128 + 128 = byte.toNat by omega, UInt8.ofNat_toNat]
          rw [serialize_of_ge (by omega), List.cons_append, htail]
          have hdiv : (byte.toNat % 128 + 128 * value) / 128 = value := by omega
          have hmod : (byte.toNat % 128 + 128 * value) % 128 + 128 = byte.toNat % 128 + 128 := by
            omega
          rw [hdiv, hmod, hbyte]
    · cases h

/-- The reader accepts exactly the writer's bytes of a value of the type, and returns that value
and what follows. -/
theorem visitSeq_eq_ok_iff {bits : Nat} (hbits : 0 < bits) {bytes : List UInt8} {value : Nat}
    {rest : List UInt8} :
    visitSeq bits bytes = .ok (value, rest) ↔ value < 2 ^ bits ∧ bytes = serialize value ++ rest := by
  constructor
  · intro h
    obtain ⟨v, hres, hfit, hbytes, -⟩ := exists_of_visitSeqFrom_eq_ok h (Nat.two_pow_pos 0)
    simp only [Nat.pow_zero, Nat.mul_one, Nat.zero_add] at hres hfit
    subst hres
    exact ⟨hfit, hbytes⟩
  · rintro ⟨hfit, rfl⟩
    have h := visitSeqFrom_serialize hbits value 0 0 rest (Nat.two_pow_pos 0)
      (by simpa using hfit) (fun _ => rfl)
    simpa [visitSeq] using h

end Agave.VarInt
