import Mathlib.Order.Interval.Finset.Nat
import Agave.Lib.AssocList
import Agave.Sdk.Basic

/-!
# The blockhash queue

`accounts-db/src/blockhash_queue.rs`. A bank keeps its recent blockhashes with the index each was
registered at; a blockhash is valid for an age `a` when it is stored and at most `a`
registrations have happened since. `register_hash` advances the index, drops the hashes older
than `max_age` once the map holds `max_age` of them, and stores the new hash at the new index;
`genesis_hash` stores a hash at index `0`.

The map is an association list (`AssocList.insert`, and `retain` as a `filter`). A `HashInfo`
keeps the fee calculator's `lamports_per_signature` and the index, not the timestamp, which
nothing here reads. `u64` and `usize` are `Nat`: that every stored index is at most
`last_hash_index` (`Tracks.le_last`) is what keeps the subtractions from wrapping.

`Tracks q R` ties the stored indices to `R`, the index each hash was last given. `genesis_hash`
and `register_hash` keep it (`tracks_genesisHash`, `Tracks.registerHash`), the map's size bound
is part of it, and validity for an age is read off it (`Tracks.isHashValidForAge_iff`). For a
run from `new`, `R` is `registeredIndex`, each hash's place among the registrations
(`tracks_registerHashes`).
-/

namespace Agave.AccountsDb

/-- `HashInfo`: the fee calculator's `lamports_per_signature` and `hash_index`. -/
structure HashInfo where
  lamportsPerSignature : Nat
  hashIndex : Nat
  deriving DecidableEq, Repr

/-- `BlockhashQueue`. -/
structure BlockhashQueue where
  lastHashIndex : Nat
  lastHash : Option Hash
  hashes : List (Hash × HashInfo)
  maxAge : Nat
  deriving Repr

namespace BlockhashQueue

/-- `BlockhashQueue::new`. -/
def new (maxAge : Nat) : BlockhashQueue := ⟨0, none, [], maxAge⟩

/-- `is_hash_index_valid`. -/
def isHashIndexValid (lastHashIndex maxAge hashIndex : Nat) : Bool :=
  lastHashIndex - hashIndex ≤ maxAge

/-- `get_hash_info_if_valid`. -/
def getHashInfoIfValid (q : BlockhashQueue) (hash : Hash) (maxAge : Nat) : Option HashInfo :=
  (AssocList.get? hash q.hashes).filter fun info =>
    isHashIndexValid q.lastHashIndex maxAge info.hashIndex

/-- `is_hash_valid_for_age`. -/
def isHashValidForAge (q : BlockhashQueue) (hash : Hash) (maxAge : Nat) : Bool :=
  (q.getHashInfoIfValid hash maxAge).isSome

/-- `get_hash_age`. -/
def getHashAge (q : BlockhashQueue) (hash : Hash) : Option Nat :=
  (AssocList.get? hash q.hashes).map fun info => q.lastHashIndex - info.hashIndex

/-- `genesis_hash`. -/
def genesisHash (q : BlockhashQueue) (hash : Hash) (lamportsPerSignature : Nat) :
    BlockhashQueue :=
  { q with
    hashes := AssocList.insert hash ⟨lamportsPerSignature, 0⟩ q.hashes,
    lastHash := some hash }

/-- The map `register_hash` inserts into: once it holds `max_age` hashes, only those still valid
at the new index are retained. -/
def retained (q : BlockhashQueue) (lastHashIndex : Nat) : List (Hash × HashInfo) :=
  if q.maxAge ≤ q.hashes.length then
    q.hashes.filter fun e => isHashIndexValid lastHashIndex q.maxAge e.2.hashIndex
  else q.hashes

/-- `register_hash`. -/
def registerHash (q : BlockhashQueue) (hash : Hash) (lamportsPerSignature : Nat) :
    BlockhashQueue :=
  let lastHashIndex := q.lastHashIndex + 1
  { q with
    lastHashIndex := lastHashIndex,
    hashes := AssocList.insert hash ⟨lamportsPerSignature, lastHashIndex⟩
      (q.retained lastHashIndex),
    lastHash := some hash }

/-- A queue from `new`, with the genesis hash stored if there is one. -/
def newWithGenesis (maxAge : Nat) : Option (Hash × Nat) → BlockhashQueue
  | none => new maxAge
  | some (hash, lamportsPerSignature) => (new maxAge).genesisHash hash lamportsPerSignature

/-- `register_hash` for each hash in turn. -/
def registerHashes (q : BlockhashQueue) (regs : List (Hash × Nat)) : BlockhashQueue :=
  regs.foldl (fun q r => q.registerHash r.1 r.2) q

variable {q : BlockhashQueue} {R : Hash → Option Nat}

@[simp] theorem registerHash_lastHashIndex (hash : Hash) (l : Nat) :
    (q.registerHash hash l).lastHashIndex = q.lastHashIndex + 1 := rfl

@[simp] theorem registerHash_maxAge (hash : Hash) (l : Nat) :
    (q.registerHash hash l).maxAge = q.maxAge := rfl

@[simp] theorem registerHash_hashes (hash : Hash) (l : Nat) :
    (q.registerHash hash l).hashes =
      AssocList.insert hash ⟨l, q.lastHashIndex + 1⟩ (q.retained (q.lastHashIndex + 1)) := rfl

theorem nodup_keys_retained (hkeys : (q.hashes.map Prod.fst).Nodup) (n : Nat) :
    ((q.retained n).map Prod.fst).Nodup := by
  unfold retained
  split
  · exact AssocList.nodup_keys_filter _ hkeys
  · exact hkeys

/-- A hash keeps its entry in the retained map unless the map was full and the entry is too old
for the new index. -/
theorem get?_retained (hkeys : (q.hashes.map Prod.fst).Nodup) {hash : Hash} {info : HashInfo}
    (n : Nat) :
    AssocList.get? hash (q.retained n) = some info ↔
      AssocList.get? hash q.hashes = some info ∧
        (q.maxAge ≤ q.hashes.length → n - info.hashIndex ≤ q.maxAge) := by
  unfold retained
  split
  · rename_i hfull
    rw [AssocList.get?_filter_eq_some hkeys]
    simp [isHashIndexValid, hfull]
  · rename_i hfull
    simp [hfull]

/-! ## The stored indices against the registrations -/

/-- The index each hash was given by a run from `new`: its place, from `1`, among the registered
hashes, or `0` for a genesis hash that was not registered again. -/
def registeredIndex (genesis : Option Hash) (regs : List Hash) (hash : Hash) : Option Nat :=
  if hash ∈ regs then some (regs.idxOf hash + 1)
  else if genesis = some hash then some 0 else none

/-- The queue stores, under distinct keys, at most `max_age + 1` hashes, each at the index `R`
gives it; every hash that `R` gives an index at most `max_age` old is stored; and `R` gives no
two hashes one index, nor any an index past the last. -/
structure Tracks (q : BlockhashQueue) (R : Hash → Option Nat) : Prop where
  keys_nodup : (q.hashes.map Prod.fst).Nodup
  stored : ∀ hash info, AssocList.get? hash q.hashes = some info → R hash = some info.hashIndex
  young_kept : ∀ hash i, R hash = some i → q.lastHashIndex - i ≤ q.maxAge →
    (AssocList.get? hash q.hashes).isSome
  le_last : ∀ hash i, R hash = some i → i ≤ q.lastHashIndex
  index_inj : ∀ hash hash' i, R hash = some i → R hash' = some i → hash = hash'
  length_le : q.hashes.length ≤ q.maxAge + 1

theorem Tracks.index_of_mem (ht : Tracks q R) {hash : Hash} {info : HashInfo}
    (h : (hash, info) ∈ q.hashes) : R hash = some info.hashIndex :=
  ht.stored hash info (AssocList.get?_of_mem ht.keys_nodup h)

/-- Validity for an age up to `max_age` is read off `R` alone. -/
theorem Tracks.isHashValidForAge_iff (ht : Tracks q R) {a : Nat} (ha : a ≤ q.maxAge)
    (hash : Hash) :
    q.isHashValidForAge hash a = true ↔ ∃ i, R hash = some i ∧ q.lastHashIndex - i ≤ a := by
  unfold isHashValidForAge getHashInfoIfValid
  cases hget : AssocList.get? hash q.hashes with
  | none =>
    simp only [Option.filter_none, Option.isSome_none, Bool.false_eq_true, false_iff,
      not_exists, not_and]
    intro i hi hage
    -- an index young enough for `a` is young enough for `max_age`, so the hash is stored
    have hkept := ht.young_kept hash i hi (le_trans hage ha)
    simp [hget] at hkept
  | some info =>
    have hR := ht.stored hash info hget
    simp [Option.filter_some, isHashIndexValid, hR]

/-- The hashes that survive the pruning of a full map have distinct indices in the last
`max_age`, so there are at most `max_age` of them. -/
theorem Tracks.length_filter_valid_le (ht : Tracks q R) :
    (q.hashes.filter fun e =>
      isHashIndexValid (q.lastHashIndex + 1) q.maxAge e.2.hashIndex).length ≤ q.maxAge := by
  set kept := q.hashes.filter fun e =>
    isHashIndexValid (q.lastHashIndex + 1) q.maxAge e.2.hashIndex
  have hmem : ∀ e ∈ kept, e ∈ q.hashes ∧
      q.lastHashIndex + 1 - e.2.hashIndex ≤ q.maxAge := by
    intro e he
    have he' := List.mem_filter.mp he
    exact ⟨he'.1, by simpa [isHashIndexValid] using he'.2⟩
  have hinj : ∀ x ∈ kept, ∀ y ∈ kept, x.2.hashIndex = y.2.hashIndex → x = y := by
    rintro ⟨k, v⟩ hx ⟨k', v'⟩ hy hidx
    have hR := ht.index_of_mem (hmem _ hx).1
    have hR' := ht.index_of_mem (hmem _ hy).1
    have hk : k = k' := ht.index_inj k k' v.hashIndex hR (by rw [hR', ← hidx])
    subst hk
    -- one key, one entry
    have hv := (AssocList.get?_of_mem ht.keys_nodup (hmem _ hx).1).symm.trans
      (AssocList.get?_of_mem ht.keys_nodup (hmem _ hy).1)
    rw [Option.some_inj] at hv
    rw [hv]
  have hnodup : (kept.map (·.2.hashIndex)).Nodup :=
    List.Nodup.map_on hinj
      (List.Nodup.of_map Prod.fst (AssocList.nodup_keys_filter _ ht.keys_nodup))
  have hsub : (kept.map (·.2.hashIndex)).toFinset ⊆
      Finset.Icc (q.lastHashIndex + 1 - q.maxAge) q.lastHashIndex := by
    intro i hi
    obtain ⟨⟨k, v⟩, he, rfl⟩ := List.mem_map.mp (List.mem_toFinset.mp hi)
    have hle := ht.le_last k _ (ht.index_of_mem (hmem _ he).1)
    have hage := (hmem _ he).2
    dsimp only at hage
    simp only [Finset.mem_Icc]
    omega
  calc kept.length = (kept.map (·.2.hashIndex)).toFinset.card := by
        rw [List.toFinset_card_of_nodup hnodup, List.length_map]
    _ ≤ (Finset.Icc (q.lastHashIndex + 1 - q.maxAge) q.lastHashIndex).card :=
        Finset.card_le_card hsub
    _ ≤ q.maxAge := by
        rw [Nat.card_Icc]
        omega

theorem Tracks.length_retained_le (ht : Tracks q R) :
    (q.retained (q.lastHashIndex + 1)).length ≤ q.maxAge := by
  unfold retained
  split
  · exact ht.length_filter_valid_le
  · omega

theorem tracks_new (maxAge : Nat) : Tracks (new maxAge) (registeredIndex none []) where
  keys_nodup := List.nodup_nil
  stored _ _ h := by cases h
  young_kept _ _ h := by simp [registeredIndex] at h
  le_last _ _ h := by simp [registeredIndex] at h
  index_inj _ _ _ h := by simp [registeredIndex] at h
  length_le := Nat.zero_le _

theorem tracks_genesisHash (maxAge : Nat) (hash : Hash) (l : Nat) :
    Tracks ((new maxAge).genesisHash hash l) (registeredIndex (some hash) []) where
  keys_nodup := List.nodup_singleton hash
  stored h info hget := by
    by_cases hh : h = hash
    · subst hh
      simp only [genesisHash, new, AssocList.get?_insert_self, Option.some_inj] at hget
      simp [registeredIndex, ← hget]
    · simp [genesisHash, new, AssocList.get?_insert_ne hh] at hget
  young_kept h i hi _ := by
    have hh : h = hash := by simp [registeredIndex] at hi; exact hi.1.symm
    subst hh
    simp [genesisHash]
  le_last h i hi := by
    simp only [registeredIndex, List.not_mem_nil, if_false, Option.ite_none_right_eq_some,
      Option.some.injEq] at hi
    simp [genesisHash, new, ← hi.2]
  index_inj h h' i hi hi' := by
    simp only [registeredIndex, List.not_mem_nil, if_false, Option.ite_none_right_eq_some,
      Option.some.injEq] at hi hi'
    rw [← Option.some_inj, ← hi.1, hi'.1]
  length_le := by simp [genesisHash, new, AssocList.insert, AssocList.alter]

/-- `register_hash` gives the hash the new index and keeps `Tracks`: the pruning only drops
hashes too old for `max_age`, and it leaves room for the new one. -/
theorem Tracks.registerHash (ht : Tracks q R) (hash : Hash) (l : Nat) :
    Tracks (q.registerHash hash l) (Function.update R hash (some (q.lastHashIndex + 1))) where
  keys_nodup := by
    rw [registerHash_hashes]
    exact AssocList.nodup_keys_insert (nodup_keys_retained ht.keys_nodup _)
  stored h info hget := by
    rw [registerHash_hashes] at hget
    by_cases hh : h = hash
    · subst hh
      rw [AssocList.get?_insert_self, Option.some_inj] at hget
      simp [← hget]
    · rw [AssocList.get?_insert_ne hh] at hget
      rw [Function.update_of_ne hh]
      exact ht.stored h info ((get?_retained ht.keys_nodup _).mp hget).1
  young_kept h i hi hage := by
    rw [registerHash_hashes]
    by_cases hh : h = hash
    · subst hh
      simp
    · rw [Function.update_of_ne hh] at hi
      rw [AssocList.get?_insert_ne hh]
      simp only [registerHash_lastHashIndex, registerHash_maxAge] at hage
      obtain ⟨info, hget⟩ := Option.isSome_iff_exists.mp
        (ht.young_kept h i hi (le_trans (Nat.sub_le_sub_right (Nat.le_succ _) i) hage))
      have hidx : info.hashIndex = i := by
        rw [ht.stored h info hget, Option.some_inj] at hi
        exact hi
      rw [(get?_retained ht.keys_nodup _).mpr ⟨hget, fun _ => hidx ▸ hage⟩]
      rfl
  le_last h i hi := by
    rw [registerHash_lastHashIndex]
    by_cases hh : h = hash
    · subst hh
      rw [Function.update_self, Option.some_inj] at hi
      exact hi.ge
    · rw [Function.update_of_ne hh] at hi
      exact Nat.le_succ_of_le (ht.le_last h i hi)
  index_inj h h' i hi hi' := by
    -- the new index is past every index `R` gave, so only `hash` has it
    by_cases hh : h = hash <;> by_cases hh' : h' = hash
    · rw [hh, hh']
    · rw [hh, Function.update_self, Option.some_inj] at hi
      rw [Function.update_of_ne hh'] at hi'
      have := ht.le_last h' i hi'
      omega
    · rw [hh', Function.update_self, Option.some_inj] at hi'
      rw [Function.update_of_ne hh] at hi
      have := ht.le_last h i hi
      omega
    · rw [Function.update_of_ne hh] at hi
      rw [Function.update_of_ne hh'] at hi'
      exact ht.index_inj h h' i hi hi'
  length_le := by
    rw [registerHash_hashes, registerHash_maxAge]
    calc _ ≤ (q.retained (q.lastHashIndex + 1)).length + 1 := AssocList.length_alter_le _ _ _ _
      _ ≤ q.maxAge + 1 := Nat.succ_le_succ ht.length_retained_le

/-- Registering a hash not registered before gives it the next place. -/
theorem registeredIndex_append {regs : List Hash} {hash : Hash} (hnew : hash ∉ regs)
    (genesis : Option Hash) :
    registeredIndex genesis (regs ++ [hash]) =
      Function.update (registeredIndex genesis regs) hash (some (regs.length + 1)) := by
  funext h
  by_cases hh : h = hash
  · subst hh
    simp [registeredIndex, List.idxOf_append_of_notMem hnew]
  · rw [Function.update_of_ne hh]
    by_cases hm : h ∈ regs
    · simp [registeredIndex, hm, List.idxOf_append_of_mem hm]
    · simp [registeredIndex, hm, hh]

/-- The run lemma: from `new`, with or without a genesis hash, registering distinct hashes keeps
`Tracks` with each hash's place among them; the index is the number of registrations. -/
theorem tracks_registerHashes (maxAge : Nat) (genesis : Option (Hash × Nat))
    (regs : List (Hash × Nat)) (hdistinct : (regs.map Prod.fst).Nodup) :
    Tracks ((newWithGenesis maxAge genesis).registerHashes regs)
        (registeredIndex (genesis.map Prod.fst) (regs.map Prod.fst)) ∧
      ((newWithGenesis maxAge genesis).registerHashes regs).lastHashIndex = regs.length ∧
      ((newWithGenesis maxAge genesis).registerHashes regs).maxAge = maxAge := by
  induction regs using List.reverseRecOn with
  | nil =>
    cases genesis with
    | none => exact ⟨tracks_new maxAge, rfl, rfl⟩
    | some g => exact ⟨tracks_genesisHash maxAge g.1 g.2, rfl, rfl⟩
  | append_singleton regs r ih =>
    rw [List.map_append, List.map_singleton, List.nodup_append] at hdistinct
    have hnew : r.1 ∉ regs.map Prod.fst := fun hm =>
      hdistinct.2.2 r.1 hm r.1 (List.mem_singleton_self _) rfl
    obtain ⟨ht, hlast, hmax⟩ := ih hdistinct.1
    simp only [registerHashes, List.foldl_append, List.foldl_cons, List.foldl_nil] at ht hlast hmax ⊢
    refine ⟨?_, by simp [hlast], by simp [hmax]⟩
    rw [List.map_append, List.map_singleton, registeredIndex_append hnew, List.length_map,
      ← hlast]
    exact ht.registerHash r.1 r.2

/-- A registered hash lies in the last `k`-th suffix exactly when its place is at least `k`. -/
theorem mem_drop_iff_le_idxOf {regs : List Hash} (hnodup : regs.Nodup) {hash : Hash}
    (hm : hash ∈ regs) (k : Nat) : hash ∈ regs.drop k ↔ k ≤ regs.idxOf hash := by
  rw [List.mem_drop_iff_getElem]
  constructor
  · rintro ⟨j, hj, rfl⟩
    rw [hnodup.idxOf_getElem]
    omega
  · intro hk
    have hlt := List.idxOf_lt_length_iff.mpr hm
    refine ⟨regs.idxOf hash - k, by omega, ?_⟩
    simp only [Nat.add_sub_cancel' hk, List.getElem_idxOf]

/-- The abstract window: a hash has an index at most `a` registrations old exactly when it is
among the last `a + 1` registered, or it is the genesis hash and at most `a` were. -/
theorem registeredIndex_window {regs : List Hash} (hnodup : regs.Nodup) (genesis : Option Hash)
    (hash : Hash) (a : Nat) :
    (∃ i, registeredIndex genesis regs hash = some i ∧ regs.length - i ≤ a) ↔
      hash ∈ regs.drop (regs.length - (a + 1)) ∨ (genesis = some hash ∧ regs.length ≤ a) := by
  by_cases hm : hash ∈ regs
  · have hlt := List.idxOf_lt_length_iff.mpr hm
    simp only [registeredIndex, hm, if_true, Option.some_inj, exists_eq_left',
      mem_drop_iff_le_idxOf hnodup hm]
    omega
  · have hdrop : hash ∉ regs.drop (regs.length - (a + 1)) := fun h => hm (List.mem_of_mem_drop h)
    simp only [registeredIndex, hm, if_false, hdrop, false_or]
    by_cases hg : genesis = some hash
    · simp [hg]
    · simp [hg]

theorem blockhash_queue_age_window (maxAge : Nat) (genesis : Option (Hash × Nat))
    (regs : List (Hash × Nat)) (hdistinct : (regs.map Prod.fst).Nodup) :
    let q := (newWithGenesis maxAge genesis).registerHashes regs
    (∀ a ≤ maxAge, ∀ hash, q.isHashValidForAge hash a = true ↔
        hash ∈ (regs.map Prod.fst).drop (regs.length - (a + 1)) ∨
          (genesis.map Prod.fst = some hash ∧ regs.length ≤ a)) ∧
      q.hashes.length ≤ maxAge + 1 ∧
      ∀ hash info, AssocList.get? hash q.hashes = some info → info.hashIndex ≤ q.lastHashIndex := by
  intro q
  obtain ⟨ht, hlast, hmax⟩ := tracks_registerHashes maxAge genesis regs hdistinct
  refine ⟨fun a ha hash => ?_, hmax ▸ ht.length_le,
    fun hash info hget => ht.le_last hash _ (ht.stored hash info hget)⟩
  rw [ht.isHashValidForAge_iff (ha.trans_eq hmax.symm), hlast]
  have hwindow := registeredIndex_window hdistinct (genesis.map Prod.fst) hash a
  rw [List.length_map] at hwindow
  exact hwindow

theorem blockhash_queue_age_window_genesis_and_three :
    let genesis : Option (Hash × Nat) := some (⟨0⟩, 5000)
    let regs : List (Hash × Nat) := [(⟨1⟩, 5000), (⟨2⟩, 5000), (⟨3⟩, 5000)]
    (regs.map Prod.fst).Nodup ∧
      let q := (newWithGenesis 2 genesis).registerHashes regs
      (∀ a ≤ 2, ∀ hash, q.isHashValidForAge hash a = true ↔
          hash ∈ (regs.map Prod.fst).drop (regs.length - (a + 1)) ∨
            (genesis.map Prod.fst = some hash ∧ regs.length ≤ a)) ∧
        q.hashes.length ≤ 2 + 1 ∧
        ∀ hash info, AssocList.get? hash q.hashes = some info →
          info.hashIndex ≤ q.lastHashIndex :=
  ⟨by decide, blockhash_queue_age_window 2 _ _ (by decide)⟩

end BlockhashQueue

end Agave.AccountsDb
