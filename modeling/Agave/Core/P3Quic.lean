import Agave.Lockup.Pool

/-!
# P3: the stakes of `update_staked_nodes`

`core/src/p3_quic.rs`. The P3 QUIC endpoint admits validators by the tokens locked up for them in
the Paladin lockup pool. `update_staked_nodes` walks the pool's entries, largest first, keeping a
running total of their amounts; it takes entries while the lockup is initialized and its amount
is more than a share of the total so far, drops the entries without metadata, and adds the
amounts up by the metadata, which names the validator identity.

The share test is written `entry.amount * 100 / stake_total > 1` over `u64`, which the release
profile lets wrap. After the integer division it admits a share of two percent or more, not the
"exceeds 1%" its comment says, and the product wraps for amounts past `u64::MAX / 100`
(`p3_stakes_diverge_from_one_percent`).

The pool account's bytes are not modelled: the function starts from the pool
`try_deserialize_lockup_pool` returns. What it does with the map after building it (the swap
into `staked_nodes` and the purge of connections) is left out.
-/

namespace Agave.Core

open Lockup LockupPool

/-- `2 ^ 64`: `u64` arithmetic wraps modulo it in a release build. -/
def U64_MODULUS : Nat := 2 ^ 64

/-- The closure of `take_while`, on `stake_total` after it has added the entry: the lockup is
initialized, its amount positive, and `entry.amount * 100 / stake_total > 1`. The `&&` stops
before the division when the amount is zero, so the total is then positive. -/
def admits (stakeTotal : Nat) (entry : LockupPoolEntry) : Bool :=
  entry.lockup != default && decide (0 < entry.amount) &&
    decide (1 < entry.amount * 100 % U64_MODULUS / stakeTotal)

/-- `take_while`, with the running total `stake_total += entry.amount` that its closure keeps. -/
def takeAdmitted (stakeTotal : Nat) : List LockupPoolEntry → List LockupPoolEntry
  | [] => []
  | entry :: rest =>
    let stakeTotal := (stakeTotal + entry.amount) % U64_MODULUS
    if admits stakeTotal entry then entry :: takeAdmitted stakeTotal rest else []

/-- The body of the `fold`: `*map.entry(key).or_default() += stake`. -/
def addStake (map : Pubkey → Option Nat) (keyStake : Pubkey × Nat) : Pubkey → Option Nat :=
  Function.update map keyStake.1 (some (((map keyStake.1).getD 0 + keyStake.2) % U64_MODULUS))

/-- The `stakes` map of `update_staked_nodes`, over every entry of the pool's array. -/
def stakesOfPool (pool : LockupPool) : Pubkey → Option Nat :=
  (((takeAdmitted 0 pool.entries).filter fun entry => entry.metadata != 0).map
    fun entry => ((⟨entry.metadata⟩ : Pubkey), entry.amount)).foldl addStake fun _ => none

/-- A pool of two live entries: 66 tokens for validator `1`, then 1 token for validator `2`. -/
def twoLockupPool : LockupPool :=
  ⟨.lockupPool, ⟨⟨1⟩, 66, 1⟩ :: ⟨⟨2⟩, 1, 2⟩ :: List.replicate (LOCKUP_CAPACITY - 2) default, 2,
    by rw [List.length_cons, List.length_cons, List.length_replicate]; rfl⟩

/-- A pool of one live entry of `2 ^ 62` tokens for validator `1`. -/
def largeLockupPool : LockupPool :=
  ⟨.lockupPool, ⟨⟨1⟩, 2 ^ 62, 1⟩ :: List.replicate (LOCKUP_CAPACITY - 1) default, 1,
    by rw [List.length_cons, List.length_replicate]; rfl⟩

/-- The stakes map misses validators the lockup pool's one percent rule admits. In a valid
two-entry pool whose amounts add up to 67, the second entry's 1 token is more than one percent of
the running total, but `1 * 100 / 67 = 1` fails `> 1`, so validator `2` gets no stake. In a valid
one-entry pool of `2 ^ 62` tokens, `2 ^ 62 * 100` wraps to `0`, so validator `1` gets none. -/
theorem p3_stakes_diverge_from_one_percent :
    twoLockupPool.Valid ∧ (twoLockupPool.live.map (·.amount)).sum ≤ U64_MAX ∧
      66 + 1 < 100 * 1 ∧
      stakesOfPool twoLockupPool ⟨1⟩ = some 66 ∧ stakesOfPool twoLockupPool ⟨2⟩ = none ∧
    largeLockupPool.Valid ∧ (largeLockupPool.live.map (·.amount)).sum ≤ U64_MAX ∧
      2 ^ 62 < 100 * 2 ^ 62 ∧ stakesOfPool largeLockupPool ⟨1⟩ = none := by
  -- past the live entries both arrays are the `replicate` of default entries they were built with
  have htwo : ∀ e ∈ twoLockupPool.entries.drop twoLockupPool.entriesLen, e = default := by
    intro e he
    change e ∈ List.replicate (LOCKUP_CAPACITY - 2) default at he
    exact List.eq_of_mem_replicate he
  have hlarge : ∀ e ∈ largeLockupPool.entries.drop largeLockupPool.entriesLen, e = default := by
    intro e he
    change e ∈ List.replicate (LOCKUP_CAPACITY - 1) default at he
    exact List.eq_of_mem_replicate he
  exact ⟨⟨by decide, by decide, by decide, htwo⟩, by decide, by decide, by decide, by decide,
    ⟨by decide, by decide, by decide, hlarge⟩, by decide, by decide, by decide⟩

end Agave.Core
