import Mathlib

/-!
# Addresses, hashes and Rust's unsigned integers

The primitive kinds of value every module below works with.

* `Pubkey` is the 32-byte account address of `solana_program::pubkey`. Every function this
  development models only compares addresses, so the bytes are kept as one big-endian 256-bit
  word: a key written in base58 in the source (`pubkey!("…")`, `declare_id!("…")`) is the base58
  rendering of that word. A `Hash` is kept the same way.
* Slots, stakes and counters are `u64`/`u32`/`usize` in the source. They are `Nat` here; an
  operation whose meaning depends on the width (`saturating_add`, or a `pow` that wraps in a
  release build) is modelled with the width spelled out.
* `hashv` hashes its slices laid end to end, as SHA-256 does; SHA-256 itself is a parameter, about
  which nothing is assumed.
* An instruction handler is a `?`-chain in `Except`; `except_bind_eq_ok` and
  `except_bind_eq_error` take one step of it apart.
-/

namespace Agave

/-- `pub struct Pubkey([u8; 32])`, read as one big-endian word. -/
structure Pubkey where
  toBitVec : BitVec 256
  deriving DecidableEq, Repr

/-- `Pubkey::default()`: all 32 bytes zero (the system program's address). -/
instance : Inhabited Pubkey := ⟨⟨0⟩⟩

/-- `solana_program::hash::Hash`, 32 bytes kept as one word like `Pubkey`. -/
structure Hash where
  toBitVec : BitVec 256
  deriving DecidableEq, Repr

/-- `Hash::default()`: all bytes zero. -/
instance : Inhabited Hash := ⟨⟨0⟩⟩

/-- `Hash::to_bytes`, `as_ref`: the 32 bytes, most significant first. -/
def Hash.toBytes (h : Hash) : List UInt8 :=
  (List.range 32).map fun i => (h.toBitVec.toNat / 2 ^ (8 * (31 - i)) % 256).toUInt8

/-- `hashv`: the hash of the slices one after another. -/
def hashv (sha256 : List UInt8 → Hash) (vals : List (List UInt8)) : Hash := sha256 vals.flatten

/-- `u64::MAX`. -/
def U64_MAX : Nat := 2 ^ 64 - 1

/-- `usize::MAX` on the 64-bit targets the programs run on. -/
def USIZE_MAX : Nat := 2 ^ 64 - 1

/-- `u32::MAX`. -/
def U32_MAX : Nat := 2 ^ 32 - 1

/-- `a.saturating_add(b)` on an unsigned integer whose largest value is `max`. -/
def saturatingAdd (max a b : Nat) : Nat := min (a + b) max

theorem saturatingAdd_of_le {max a b : Nat} (h : a + b ≤ max) : saturatingAdd max a b = a + b :=
  Nat.min_eq_left h

theorem saturatingAdd_le_saturatingAdd_right {max a b b' : Nat} (h : b ≤ b') :
    saturatingAdd max a b ≤ saturatingAdd max a b' := by
  unfold saturatingAdd
  omega

theorem le_saturatingAdd_left {max a b : Nat} (h : a ≤ max) : a ≤ saturatingAdd max a b := by
  unfold saturatingAdd
  omega

/-! The instruction handlers are `?`-chains in `Except`: a chain succeeds when every step does,
and fails with the error of the step that fails. -/

section ExceptBind

variable {ε α β : Type} {x : Except ε α} {f : α → Except ε β}

theorem except_bind_eq_ok {b : β} (h : x >>= f = .ok b) : ∃ a, x = .ok a ∧ f a = .ok b := by
  cases x with
  | error e => cases h
  | ok a => exact ⟨a, rfl, h⟩

theorem except_bind_eq_error {e : ε} (h : x >>= f = .error e) :
    x = .error e ∨ ∃ a, x = .ok a ∧ f a = .error e := by
  cases x with
  | error e' => exact .inl (by simpa [bind, Except.bind] using h)
  | ok a => exact .inr ⟨a, rfl, h⟩

theorem except_pure_ne_error (b : β) (e : ε) : (pure b : Except ε β) ≠ .error e := nofun

end ExceptBind

end Agave
