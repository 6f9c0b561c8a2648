import Agave.Sdk.Message

/-!
# Front-run detection for bundles

`core/src/bundle_stage/front_run_identifier.rs`. After a bundle has executed, the bundle stage
drops it when `is_bundle_front_run` says that two of its transactions write-lock the same
account owned by an AMM program while sharing no signer. The detector builds a map from each
such account to the bitmap of the transactions writing it (`AMM_MAP`), turns the map into a
symmetric overlap matrix, and then compares the signer lists of every overlapping pair.

The model follows the three loops one by one, each with its own spec lemma:

* `buildAmmMap` yields, for every key, exactly the transactions that write it
  (`buildAmmMap_spec`);
* `overlapMatrix` marks `(i, j)` exactly when `i` and `j` write a common key that at least two
  transactions write (`overlapMatrix_spec`);
* `checkPairs` returns `true` exactly at an overlapping pair with no common signer
  (`checkPairs_iff`).

`isBundleFrontRun_iff` puts them together. The signers it compares are those of
`BundleTransaction::signers`, the first `num_total_signatures()` account keys, and that count
includes the signatures that secp256k1 and ed25519 precompile instructions ask for.
-/

namespace Agave.BundleStage

/-- `MAX_PACKETS_PER_BUNDLE`. -/
def maxPacketsPerBundle : Nat := 5

/-- `AMM_PROGRAMS`, in the order of the source. -/
def ammPrograms : List Pubkey :=
  [ ⟨0x4bd949c43602c33f207790ed16a3524ca1b9975cf121a2a90cffec7df8b68acd#256⟩, -- RaydiumV4
    ⟨0x850f2d6e02a47af824d09ab69dc42d70cb28cbfa249fb7ee57b9d256c12762ef#256⟩, -- Serum DEX V3
    ⟨0xccf802d4cccc84d7fb21b5f73b49d81a16c5b4c88ee32394e1c91d3588cc4080#256⟩, -- Meteora CPMM
    ⟨0x0e03685f8e909053e458121c66f5a76aedc7706aa11c82f8aa952a8f2b7879a9#256⟩, -- Whirlpool
    ⟨0x0d0751a8282da61305fe299c37b998e58471db1135037310f8be1045a60af6ee#256⟩, -- Serum
    ⟨0xbd2e8d50bc09278e5e14bf65629a4896f5819ecac40f50c84b757847ba9464dc#256⟩, -- Orca AMM V1
    ⟨0x7e54771a57a6f14ca9e402d54aee45f7378aca365c7b169a7ec83f5182b298f0#256⟩, -- Orca AMM V2
    ⟨0x04e9e12fbc84e826c932cce9e2640cce15590c1c6273b0925708ba3b8520b0bc#256⟩, -- Meteora DLMM
    ⟨0x0684db496cfadfe7d5a1d18cd39b96cd3c88db6484c1bc75681839119b6affb6#256⟩, -- Saber
    ⟨0xa5d5ca9e04cf5db590b714ba2fe32cb159133fc1c192b72257fd07d39cb0401e#256⟩, -- Raydium CLMM
    ⟨0xa92a5a8b4f295952842550aa93fd5b95b5ace6a8eb920c93942e43690c20ec73#256⟩, -- Raydium CPMM
    ⟨0x05d0ea4f33737013a563e09348edb6f4593d91fc7641f9247c2441a842a1bbeb#256⟩, -- Phoenix
    ⟨0x0bfebfbdfbabfad0b46571bf958c1eb824787bb0994bb1846b2978071e1799be#256⟩, -- Open Book
    ⟨0x0156e0f693665acf44db1568bf175baa5189cb97f5d2ff3b655d2bb6fd6d18b0#256⟩ ] -- Pump.fun

/-! ## Executed bundles -/

/-- The one field of `AccountSharedData` that the detector reads. -/
structure AccountSharedData where
  owner : Pubkey
  deriving DecidableEq, Repr

/-- `LoadedTransaction`: the loader puts the account of each message key first, in key order. -/
structure LoadedTransaction where
  accounts : List (Pubkey × AccountSharedData)
  deriving DecidableEq, Repr

/-- What the detector reads of a `SanitizedTransaction`. -/
structure SanitizedTransaction where
  message : SanitizedMessage

/-- A `TransactionProcessingResult`, up to what `executed_transaction()` distinguishes. -/
inductive TransactionProcessingResult where
  | err
  | feesOnly
  | executed (loadedTransaction : LoadedTransaction)

/-- `BundleTransactionsOutput`: one batch of the bundle with its processing results. -/
structure BundleTransactionsOutput where
  transactions : List SanitizedTransaction
  processingResults : List TransactionProcessingResult

/-- `LoadAndExecuteBundleOutput`; `result` stands for `result.is_ok()`. -/
structure LoadAndExecuteBundleOutput where
  bundleTransactionResults : List BundleTransactionsOutput
  result : Bool

/-- `(&SanitizedTransaction, &LoadedTransaction)`, the `BundleTransaction` of an executed
bundle. -/
structure BundleTransaction where
  sanitized : SanitizedTransaction
  loaded : LoadedTransaction

/-- `AccountRef`. -/
structure AccountRef where
  key : Pubkey
  owner : Pubkey

namespace BundleTransaction

/-- `signers`: the first `num_total_signatures()` account keys. -/
def signers (tx : BundleTransaction) : List Pubkey :=
  tx.sanitized.message.accountKeys.take tx.sanitized.message.numTotalSignatures

/-- `writable_accounts_owners`: each write-locked key with the owner of the account loaded at
its index (`self.1.accounts[i]`; the loader loads one account per key, so zipping the keys with
the loaded accounts reads the same entries). -/
def writableAccountsOwners (tx : BundleTransaction) : List AccountRef :=
  (((tx.sanitized.message.accountKeys.zip tx.loaded.accounts).zipIdx).filter
      fun p => tx.sanitized.message.isWritable p.2).map
    fun p => ⟨p.1.1, p.1.2.2.owner⟩

/-- The transaction write-locks `key`, loaded with an AMM program as its owner. -/
def WritesAmm (tx : BundleTransaction) (key : Pubkey) : Prop :=
  ∃ a ∈ tx.writableAccountsOwners, a.key = key ∧ a.owner ∈ ammPrograms

instance (tx : BundleTransaction) (key : Pubkey) : Decidable (tx.WritesAmm key) :=
  inferInstanceAs (Decidable (∃ a ∈ tx.writableAccountsOwners, a.key = key ∧ a.owner ∈ ammPrograms))

end BundleTransaction

namespace LoadAndExecuteBundleOutput

/-- `executed_ok`. -/
def executedOk (b : LoadAndExecuteBundleOutput) : Bool := b.result

/-- `transactions`: every batch's transactions paired with their results, keeping those that
executed. -/
def transactions (b : LoadAndExecuteBundleOutput) : List BundleTransaction :=
  b.bundleTransactionResults.flatMap fun batch =>
    (batch.transactions.zip batch.processingResults).filterMap fun
      | (sanitized, .executed loaded) => some ⟨sanitized, loaded⟩
      | _ => none

end LoadAndExecuteBundleOutput

/-! ## The detector -/

/-- `map.entry_ref(key).or_default()[i] = true` on `AMM_MAP`, kept as an association list. -/
def recordWriter : List (Pubkey × List Bool) → Pubkey → Nat → List (Pubkey × List Bool)
  | [], key, i => [(key, (List.replicate maxPacketsPerBundle false).set i true)]
  | (k, txs) :: rest, key, i =>
    if k = key then (k, txs.set i true) :: rest else (k, txs) :: recordWriter rest key i

/-- One transaction's pass of the first loop: record it for each of its AMM-owned writable
accounts. -/
def recordTransaction (map : List (Pubkey × List Bool)) (tx : BundleTransaction) (i : Nat) :
    List (Pubkey × List Bool) :=
  ((tx.writableAccountsOwners.filter fun a => a.owner ∈ ammPrograms)).foldl
    (fun map a => recordWriter map a.key i) map

/-- The first loop: `AMM_MAP` after every transaction has been recorded. -/
def buildAmmMap (txs : List BundleTransaction) : List (Pubkey × List Bool) :=
  txs.zipIdx.foldl (fun map p => recordTransaction map p.1 p.2) []

/-- Reading `overlap_matrix[i][j]`. -/
def cell (m : List (List Bool)) (i j : Nat) : Bool := (m.getD i []).getD j false

/-- `overlap_matrix[i][j] = true`. -/
def setOverlap (m : List (List Bool)) (i j : Nat) : List (List Bool) :=
  m.modify i (·.set j true)

/-- `overlap_matrix[i][j] = true; overlap_matrix[j][i] = true;`. -/
def markPair (m : List (List Bool)) (i j : Nat) : List (List Bool) :=
  setOverlap (setOverlap m i j) j i

/-- The second loop's body for one bitmap: a key written by at least two transactions makes
every pair of its writers overlap, in both orders. -/
def markOverlaps (m : List (List Bool)) (txs : List Bool) : List (List Bool) :=
  if (txs.filter id).length ≤ 1 then m
  else
    txs.zipIdx.foldl (fun m p1 =>
      txs.zipIdx.foldl (fun m p2 =>
        if p1.1 && p2.1 then markPair m p1.2 p2.2 else m) m) m

/-- The second loop: the overlap matrix of the map's bitmaps. -/
def overlapMatrix (map : List (Pubkey × List Bool)) : List (List Bool) :=
  map.foldl (fun m p => markOverlaps m p.2)
    (List.replicate maxPacketsPerBundle (List.replicate maxPacketsPerBundle false))

/-- The brute-force signer comparison: some signer of `a` is a signer of `b`. -/
def sharesSigner (a b : BundleTransaction) : Bool :=
  a.signers.any fun i => b.signers.any fun j => i == j

/-- The order of the last loop: `i` from `0`, `j` from `i`, both below the matrix size. -/
def signerCheckOrder : List (Nat × Nat) :=
  (List.range maxPacketsPerBundle).flatMap fun i =>
    (List.range' i (maxPacketsPerBundle - i)).map fun j => (i, j)

/-- The last loop: at the first overlapping pair whose signers are disjoint it returns `true`;
a pair whose transactions cannot be found returns `false` (the `BUG` branches). -/
def checkPairs (txs : List BundleTransaction) (m : List (List Bool)) :
    List (Nat × Nat) → Bool
  | [] => false
  | (i, j) :: rest =>
    if cell m i j then
      match txs[i]?, txs[j]? with
      | some a, some b => if sharesSigner a b then checkPairs txs m rest else true
      | _, _ => false
    else checkPairs txs m rest

/-- `is_bundle_front_run`. -/
def isBundleFrontRun (bundle : LoadAndExecuteBundleOutput) : Bool :=
  if !bundle.executedOk then false
  else
    let txs := bundle.transactions
    if txs.length ≤ 1 then false
    else if txs.length > maxPacketsPerBundle then false
    else checkPairs txs (overlapMatrix (buildAmmMap txs)) signerCheckOrder

/-! ## The writers map

`AmmMapSpec P map` says that `map` records exactly the writer relation `P`: its keys are
distinct, the bitmap of each key marks exactly that key's writers, and every key with a writer
has an entry. The first loop establishes it for "transaction `j` write-locks `k` as an AMM
account" (`buildAmmMap_spec`). -/

/-- The bitmap of the writers of one key. -/
structure AmmMapSpec (P : Nat → Pubkey → Prop) (map : List (Pubkey × List Bool)) : Prop where
  nodup : (map.map Prod.fst).Nodup
  bitmap : ∀ e ∈ map, e.2.length = maxPacketsPerBundle ∧
    ∀ j, e.2.getD j false = true ↔ j < maxPacketsPerBundle ∧ P j e.1
  present : ∀ j k, j < maxPacketsPerBundle → P j k → k ∈ map.map Prod.fst

theorem AmmMapSpec.nil : AmmMapSpec (fun _ _ => False) [] :=
  ⟨List.nodup_nil, by simp, by simp⟩

theorem AmmMapSpec.congr {P Q : Nat → Pubkey → Prop} {map : List (Pubkey × List Bool)}
    (h : AmmMapSpec P map) (hPQ : ∀ j k, P j k ↔ Q j k) : AmmMapSpec Q map := by
  have : P = Q := funext fun j => funext fun k => propext (hPQ j k)
  exact this ▸ h

/-- Setting bit `i` of a bitmap that covers `i`. -/
theorem getD_set_true {w : List Bool} {i j : Nat} (hi : i < w.length) :
    (w.set i true).getD j false = true ↔ j = i ∨ w.getD j false = true := by
  simp only [List.getD_eq_getElem?_getD, List.getElem?_set]
  by_cases hij : i = j
  · subst hij
    simp [hi]
  · simp [hij, Ne.symm hij]

theorem recordWriter_of_not_mem {map : List (Pubkey × List Bool)} {key : Pubkey} {i : Nat}
    (h : key ∉ map.map Prod.fst) :
    recordWriter map key i = map ++ [(key, (List.replicate maxPacketsPerBundle false).set i true)] := by
  induction map with
  | nil => rfl
  | cons e rest ih =>
    obtain ⟨k, w⟩ := e
    have hk : k ≠ key := fun hk => h (by simp [hk])
    have hrest : key ∉ rest.map Prod.fst := fun hm => h (by simp_all)
    simp [recordWriter, hk, ih hrest]

theorem recordWriter_of_mem {map : List (Pubkey × List Bool)} {key : Pubkey} {i : Nat}
    (hnd : (map.map Prod.fst).Nodup) (h : key ∈ map.map Prod.fst) :
    recordWriter map key i = map.map fun e => if e.1 = key then (e.1, e.2.set i true) else e := by
  induction map with
  | nil => simp at h
  | cons e rest ih =>
    obtain ⟨k, w⟩ := e
    simp only [List.map_cons, List.nodup_cons] at hnd
    by_cases hk : k = key
    · -- the first entry is the key's; the distinct keys leave the rest untouched
      subst hk
      have hrest : ∀ e ∈ rest, e.1 ≠ k := fun e he hek => hnd.1 (hek ▸ List.mem_map_of_mem he)
      have hid : rest.map (fun e => if e.1 = k then (e.1, e.2.set i true) else e) = rest :=
        (List.map_congr_left fun e he => if_neg (hrest e he)).trans (List.map_id' rest)
      simp [recordWriter, hid]
    · have hrest : key ∈ rest.map Prod.fst := by
        simp only [List.map_cons, List.mem_cons] at h
        exact h.resolve_left (Ne.symm hk)
      simp [recordWriter, hk, ih hnd.2 hrest]

theorem AmmMapSpec.step_recordWriter {P : Nat → Pubkey → Prop} {map : List (Pubkey × List Bool)}
    {key : Pubkey} {i : Nat} (h : AmmMapSpec P map) (hi : i < maxPacketsPerBundle) :
    AmmMapSpec (fun j k => P j k ∨ (j = i ∧ k = key)) (recordWriter map key i) := by
  by_cases hkey : key ∈ map.map Prod.fst
  · rw [recordWriter_of_mem h.nodup hkey]
    refine ⟨?_, ?_, ?_⟩
    · rw [List.map_map]
      convert h.nodup using 2
      funext e
      by_cases he : e.1 = key <;> simp [he]
    · intro e' he'
      obtain ⟨e, he, rfl⟩ := List.mem_map.mp he'
      obtain ⟨hlen, hbits⟩ := h.bitmap e he
      by_cases hek : e.1 = key
      · simp only [hek, if_true, List.length_set]
        refine ⟨hlen, fun j => ?_⟩
        rw [getD_set_true (hlen ▸ hi), hbits]
        constructor
        · rintro (rfl | ⟨hj, hP⟩)
          · exact ⟨hi, by simp⟩
          · exact ⟨hj, Or.inl (hek ▸ hP)⟩
        · rintro ⟨hj, hP | ⟨rfl, -⟩⟩
          · exact Or.inr ⟨hj, hek ▸ hP⟩
          · exact Or.inl rfl
      · simp only [hek, if_false]
        refine ⟨hlen, fun j => ?_⟩
        rw [hbits]
        simp
    · intro j k hj hP
      rw [List.map_map]
      rcases hP with hP | ⟨-, rfl⟩
      · obtain ⟨e, he, rfl⟩ := List.mem_map.mp (h.present j k hj hP)
        exact List.mem_map.mpr ⟨e, he, by by_cases hek : e.1 = key <;> simp [hek]⟩
      · obtain ⟨e, he, hek⟩ := List.mem_map.mp hkey
        exact List.mem_map.mpr ⟨e, he, by simp [hek]⟩
  · rw [recordWriter_of_not_mem hkey]
    -- the key is new, so nobody wrote it before and its fresh bitmap holds only `i`
    have hnone : ∀ j, j < maxPacketsPerBundle → ¬ P j key := fun j hj hP => hkey (h.present j key hj hP)
    refine ⟨?_, ?_, ?_⟩
    · simp only [List.map_append, List.map_cons, List.map_nil, List.nodup_append,
        List.nodup_cons, List.not_mem_nil, not_false_eq_true, List.nodup_nil, and_self,
        List.mem_singleton, true_and]
      exact ⟨h.nodup, fun a ha b hb hab => hkey (hb ▸ hab ▸ ha)⟩
    · intro e he
      rcases List.mem_append.mp he with he | he
      · obtain ⟨hlen, hbits⟩ := h.bitmap e he
        have hek : e.1 ≠ key := fun hek => hkey (hek ▸ List.mem_map_of_mem he)
        refine ⟨hlen, fun j => ?_⟩
        rw [hbits]
        simp [hek]
      · obtain rfl := List.mem_singleton.mp he
        have hlen : (List.replicate maxPacketsPerBundle false).length = maxPacketsPerBundle :=
          List.length_replicate
        refine ⟨by simp, fun j => ?_⟩
        rw [getD_set_true (hlen ▸ hi)]
        constructor
        · rintro (rfl | h0)
          · exact ⟨hi, by simp⟩
          · simp only [List.getD_eq_getElem?_getD, List.getElem?_replicate] at h0
            split at h0 <;> simp at h0
        · rintro ⟨hj, hP | ⟨rfl, -⟩⟩
          · exact absurd hP (hnone j hj)
          · exact Or.inl rfl
    · intro j k hj hP
      rcases hP with hP | ⟨-, rfl⟩
      · simp [h.present j k hj hP]
      · simp

theorem AmmMapSpec.foldl_recordWriter {i : Nat}
    (hi : i < maxPacketsPerBundle) :
    ∀ (l : List AccountRef) (P : Nat → Pubkey → Prop) (map : List (Pubkey × List Bool)),
      AmmMapSpec P map →
      AmmMapSpec (fun j k => P j k ∨ (j = i ∧ ∃ a ∈ l, a.key = k))
        (l.foldl (fun map a => recordWriter map a.key i) map)
  | [], P, map, h => h.congr fun j k => by simp
  | a :: l, P, map, h => by
    rw [List.foldl_cons]
    refine (AmmMapSpec.foldl_recordWriter hi l _ _ (h.step_recordWriter hi)).congr fun j k => ?_
    simp only [List.mem_cons, exists_eq_or_imp]
    rw [and_or_left, or_assoc, @eq_comm _ k]

theorem AmmMapSpec.step_recordTransaction {P : Nat → Pubkey → Prop} {map : List (Pubkey × List Bool)}
    {tx : BundleTransaction} {i : Nat} (h : AmmMapSpec P map) (hi : i < maxPacketsPerBundle) :
    AmmMapSpec (fun j k => P j k ∨ (j = i ∧ tx.WritesAmm k)) (recordTransaction map tx i) :=
  (AmmMapSpec.foldl_recordWriter hi _ P map h).congr fun j k => by
    simp only [BundleTransaction.WritesAmm, List.mem_filter, decide_eq_true_eq]
    constructor
    · rintro (hP | ⟨rfl, a, ⟨ha, hamm⟩, rfl⟩)
      · exact Or.inl hP
      · exact Or.inr ⟨rfl, a, ha, rfl, hamm⟩
    · rintro (hP | ⟨rfl, a, ha, rfl, hamm⟩)
      · exact Or.inl hP
      · exact Or.inr ⟨rfl, a, ⟨ha, hamm⟩, rfl⟩

theorem AmmMapSpec.foldl_recordTransaction :
    ∀ (ps : List (BundleTransaction × Nat)) (P : Nat → Pubkey → Prop)
      (map : List (Pubkey × List Bool)), AmmMapSpec P map →
      (∀ p ∈ ps, p.2 < maxPacketsPerBundle) →
      AmmMapSpec (fun j k => P j k ∨ ∃ tx, (tx, j) ∈ ps ∧ tx.WritesAmm k)
        (ps.foldl (fun map p => recordTransaction map p.1 p.2) map)
  | [], P, map, h, _ => h.congr fun j k => by simp
  | (tx, i) :: ps, P, map, h, hps => by
    rw [List.foldl_cons]
    have hi : i < maxPacketsPerBundle := hps (tx, i) List.mem_cons_self
    refine (AmmMapSpec.foldl_recordTransaction ps _ _ (h.step_recordTransaction hi)
      fun p hp => hps p (List.mem_cons_of_mem _ hp)).congr fun j k => ?_
    simp only [List.mem_cons, Prod.mk.injEq, or_and_right, exists_or, and_assoc, exists_eq_left,
      or_assoc]

/-- Transaction `j` of the bundle write-locks `k` as an AMM account. -/
def AmmWriter (txs : List BundleTransaction) (j : Nat) (k : Pubkey) : Prop :=
  ∃ tx, txs[j]? = some tx ∧ tx.WritesAmm k

/-- The first loop records exactly the AMM writers of the bundle. -/
theorem buildAmmMap_spec {txs : List BundleTransaction} (h : txs.length ≤ maxPacketsPerBundle) :
    AmmMapSpec (AmmWriter txs) (buildAmmMap txs) := by
  have hidx : ∀ p ∈ txs.zipIdx, p.2 < maxPacketsPerBundle := fun p hp =>
    lt_of_lt_of_le (List.getElem?_eq_some_iff.mp (List.mem_zipIdx_iff_getElem?.mp hp)).1 h
  refine (AmmMapSpec.foldl_recordTransaction txs.zipIdx _ [] AmmMapSpec.nil hidx).congr
    fun j k => ?_
  simp [AmmWriter, List.mk_mem_zipIdx_iff_getElem?]

/-! ## The overlap matrix -/

/-- The overlap matrix keeps its `MAX_PACKETS_PER_BUNDLE × MAX_PACKETS_PER_BUNDLE` shape. -/
def IsSquare (m : List (List Bool)) : Prop :=
  m.length = maxPacketsPerBundle ∧ ∀ i < maxPacketsPerBundle, (m.getD i []).length = maxPacketsPerBundle

theorem getD_setOverlap {m : List (List Bool)} {a b i : Nat} :
    (setOverlap m a b).getD i [] = if a = i then (m.getD i []).set b true else m.getD i [] := by
  simp only [setOverlap, List.getD_eq_getElem?_getD, List.getElem?_modify]
  by_cases h : a = i
  · subst h
    cases m[a]? <;> simp
  · simp [h]

theorem IsSquare.setOverlap {m : List (List Bool)} {a b : Nat} (hm : IsSquare m) :
    IsSquare (setOverlap m a b) := by
  refine ⟨by simp [BundleStage.setOverlap, hm.1], fun i hi => ?_⟩
  rw [getD_setOverlap]
  split
  · rw [List.length_set]
    exact hm.2 i hi
  · exact hm.2 i hi

theorem cell_setOverlap {m : List (List Bool)} {a b i j : Nat} (hm : IsSquare m)
    (ha : a < maxPacketsPerBundle) (hb : b < maxPacketsPerBundle) :
    cell (setOverlap m a b) i j = true ↔ cell m i j = true ∨ (i = a ∧ j = b) := by
  unfold cell
  rw [getD_setOverlap]
  by_cases hai : a = i
  · subst hai
    rw [if_pos rfl, getD_set_true (by rw [hm.2 a ha]; exact hb)]
    constructor
    · rintro (rfl | h)
      · exact Or.inr ⟨rfl, rfl⟩
      · exact Or.inl h
    · rintro (h | ⟨-, rfl⟩)
      · exact Or.inr h
      · exact Or.inl rfl
  · rw [if_neg hai]
    constructor
    · exact Or.inl
    · rintro (h | ⟨rfl, -⟩)
      · exact h
      · exact absurd rfl hai

theorem IsSquare.markPair {m : List (List Bool)} {a b : Nat} (hm : IsSquare m) :
    IsSquare (markPair m a b) :=
  hm.setOverlap.setOverlap

theorem cell_markPair {m : List (List Bool)} {a b i j : Nat} (hm : IsSquare m)
    (ha : a < maxPacketsPerBundle) (hb : b < maxPacketsPerBundle) :
    cell (markPair m a b) i j = true ↔
      cell m i j = true ∨ (i = a ∧ j = b) ∨ (i = b ∧ j = a) := by
  rw [BundleStage.markPair, cell_setOverlap hm.setOverlap hb ha, cell_setOverlap hm ha hb, or_assoc]

/-- The inner loop of the second loop: the writer `a` (flag `t`) is paired with every writer. -/
theorem foldl_markPair_inner {a : Nat} {t : Bool} (ha : a < maxPacketsPerBundle) :
    ∀ (ps : List (Bool × Nat)) (m : List (List Bool)), IsSquare m →
      (∀ p ∈ ps, p.2 < maxPacketsPerBundle) →
      let r := ps.foldl (fun m p2 => if t && p2.1 then markPair m a p2.2 else m) m
      IsSquare r ∧ ∀ i j, cell r i j = true ↔ cell m i j = true ∨
        ∃ p ∈ ps, t = true ∧ p.1 = true ∧ ((i = a ∧ j = p.2) ∨ (i = p.2 ∧ j = a))
  | [], m, hm, _ => ⟨hm, fun i j => by simp⟩
  | p :: ps, m, hm, hps => by
    have hp : p.2 < maxPacketsPerBundle := hps p List.mem_cons_self
    have hrest : ∀ q ∈ ps, q.2 < maxPacketsPerBundle := fun q hq => hps q (List.mem_cons_of_mem _ hq)
    simp only [List.foldl_cons]
    by_cases htp : (t && p.1) = true
    · rw [if_pos htp]
      obtain ⟨ht, hp1⟩ := Bool.and_eq_true_iff.mp htp
      obtain ⟨hsq, hcell⟩ := foldl_markPair_inner ha ps _ hm.markPair hrest
      refine ⟨hsq, fun i j => ?_⟩
      rw [hcell, cell_markPair hm ha hp]
      simp only [List.mem_cons, or_and_right, exists_or, exists_eq_left, ht, hp1, true_and, or_assoc]
    · rw [if_neg htp]
      obtain ⟨hsq, hcell⟩ := foldl_markPair_inner ha ps m hm hrest
      refine ⟨hsq, fun i j => ?_⟩
      rw [hcell]
      simp only [List.mem_cons, or_and_right, exists_or, exists_eq_left]
      have hskip : ¬ (t = true ∧ p.1 = true) := fun h => htp (Bool.and_eq_true_iff.mpr h)
      constructor
      · rintro (h | h)
        · exact Or.inl h
        · exact Or.inr (Or.inr h)
      · rintro (h | ⟨ht, hp1, -⟩ | h)
        · exact Or.inl h
        · exact absurd ⟨ht, hp1⟩ hskip
        · exact Or.inr h

/-- Both loops of the second loop for one bitmap: every two writers are paired. -/
theorem foldl_markPair_outer (ps : List (Bool × Nat)) (hps : ∀ p ∈ ps, p.2 < maxPacketsPerBundle) :
    ∀ (qs : List (Bool × Nat)) (m : List (List Bool)), IsSquare m →
      (∀ q ∈ qs, q.2 < maxPacketsPerBundle) →
      let r := qs.foldl (fun m p1 =>
        ps.foldl (fun m p2 => if p1.1 && p2.1 then markPair m p1.2 p2.2 else m) m) m
      IsSquare r ∧ ∀ i j, cell r i j = true ↔ cell m i j = true ∨
        ∃ q ∈ qs, ∃ p ∈ ps, q.1 = true ∧ p.1 = true ∧
          ((i = q.2 ∧ j = p.2) ∨ (i = p.2 ∧ j = q.2))
  | [], m, hm, _ => ⟨hm, fun i j => by simp⟩
  | q :: qs, m, hm, hqs => by
    have hq : q.2 < maxPacketsPerBundle := hqs q List.mem_cons_self
    have hrest : ∀ q' ∈ qs, q'.2 < maxPacketsPerBundle :=
      fun q' hq' => hqs q' (List.mem_cons_of_mem _ hq')
    simp only [List.foldl_cons]
    obtain ⟨hsq₁, hcell₁⟩ := foldl_markPair_inner (t := q.1) hq ps m hm hps
    obtain ⟨hsq₂, hcell₂⟩ := foldl_markPair_outer ps hps qs _ hsq₁ hrest
    refine ⟨hsq₂, fun i j => ?_⟩
    rw [hcell₂, hcell₁]
    simp only [List.mem_cons, or_and_right, exists_or, exists_eq_left, or_assoc]

/-- A bitmap in which two different positions are set has more than one writer. -/
theorem one_lt_length_filter {w : List Bool} {i j : Nat} (hij : i ≠ j)
    (hi : w.getD i false = true) (hj : w.getD j false = true) : 1 < (w.filter id).length := by
  have hpos : ∀ (w : List Bool) k, w.getD k false = true → 0 < (w.filter id).length := by
    intro w
    induction w with
    | nil => simp
    | cons b w ih =>
      intro k hk
      cases b
      · cases k with
        | zero => simp at hk
        | succ k => simpa using ih k (by simpa using hk)
      · simp
  induction w generalizing i j with
  | nil => simp at hi
  | cons b w ih =>
    cases i with
    | zero =>
      obtain ⟨j, rfl⟩ : ∃ j', j = j' + 1 := ⟨j - 1, by omega⟩
      have hb : b = true := by simpa using hi
      subst hb
      simpa using hpos w j (by simpa using hj)
    | succ i =>
      cases j with
      | zero =>
        have hb : b = true := by simpa using hj
        subst hb
        simpa using hpos w i (by simpa using hi)
      | succ j =>
        have := ih (i := i) (j := j) (by omega) (by simpa using hi) (by simpa using hj)
        rw [List.filter_cons]
        split
        · rw [List.length_cons]
          omega
        · exact this

theorem getD_eq_true_iff {w : List Bool} {k : Nat} : w.getD k false = true ↔ w[k]? = some true := by
  rw [List.getD_eq_getElem?_getD]
  cases w[k]? <;> simp

/-- The second loop's body: a key with at least two writers pairs every two of them. -/
theorem markOverlaps_spec {m : List (List Bool)} {w : List Bool} (hm : IsSquare m)
    (hw : w.length = maxPacketsPerBundle) :
    IsSquare (markOverlaps m w) ∧ ∀ i j, cell (markOverlaps m w) i j = true ↔
      cell m i j = true ∨
        (1 < (w.filter id).length ∧ w.getD i false = true ∧ w.getD j false = true) := by
  unfold markOverlaps
  split
  · refine ⟨hm, fun i j => ?_⟩
    constructor
    · exact Or.inl
    · rintro (h | ⟨hlt, -⟩)
      · exact h
      · omega
  · rename_i hcount
    have hidx : ∀ p ∈ w.zipIdx, p.2 < maxPacketsPerBundle := fun p hp =>
      hw ▸ (List.getElem?_eq_some_iff.mp (List.mem_zipIdx_iff_getElem?.mp hp)).1
    obtain ⟨hsq, hcell⟩ := foldl_markPair_outer w.zipIdx hidx w.zipIdx m hm hidx
    refine ⟨hsq, fun i j => ?_⟩
    rw [hcell]
    -- a writer pair in the bitmap is a pair of set positions, in either order
    have hpair : (∃ q ∈ w.zipIdx, ∃ p ∈ w.zipIdx, q.1 = true ∧ p.1 = true ∧
        ((i = q.2 ∧ j = p.2) ∨ (i = p.2 ∧ j = q.2))) ↔
        (w.getD i false = true ∧ w.getD j false = true) := by
      simp only [getD_eq_true_iff]
      constructor
      · rintro ⟨⟨b₁, a⟩, hq, ⟨b₂, c⟩, hp, rfl, rfl, ⟨rfl, rfl⟩ | ⟨rfl, rfl⟩⟩
        · exact ⟨List.mem_zipIdx_iff_getElem?.mp hq, List.mem_zipIdx_iff_getElem?.mp hp⟩
        · exact ⟨List.mem_zipIdx_iff_getElem?.mp hp, List.mem_zipIdx_iff_getElem?.mp hq⟩
      · rintro ⟨hi, hj⟩
        exact ⟨(true, i), List.mk_mem_zipIdx_iff_getElem?.mpr hi, (true, j),
          List.mk_mem_zipIdx_iff_getElem?.mpr hj, rfl, rfl, Or.inl ⟨rfl, rfl⟩⟩
    rw [hpair]
    have : 1 < (w.filter id).length := by omega
    simp [this]

theorem cell_replicate (i j : Nat) :
    cell (List.replicate maxPacketsPerBundle (List.replicate maxPacketsPerBundle false)) i j = false := by
  simp only [cell, List.getD_eq_getElem?_getD, List.getElem?_replicate]
  by_cases hi : i < maxPacketsPerBundle <;> by_cases hj : j < maxPacketsPerBundle <;> simp [hi, hj]

theorem isSquare_replicate :
    IsSquare (List.replicate maxPacketsPerBundle (List.replicate maxPacketsPerBundle false)) := by
  refine ⟨List.length_replicate, fun i hi => ?_⟩
  simp [List.getD_eq_getElem?_getD, hi]

/-- The second loop: `(i, j)` overlaps exactly when some key's bitmap has at least two writers,
`i` and `j` among them. -/
theorem overlapMatrix_spec {map : List (Pubkey × List Bool)}
    (hmap : ∀ e ∈ map, e.2.length = maxPacketsPerBundle) (i j : Nat) :
    cell (overlapMatrix map) i j = true ↔ ∃ e ∈ map,
      1 < (e.2.filter id).length ∧ e.2.getD i false = true ∧ e.2.getD j false = true := by
  suffices h : ∀ (l : List (Pubkey × List Bool)) (m : List (List Bool)), IsSquare m →
      (∀ e ∈ l, e.2.length = maxPacketsPerBundle) →
      IsSquare (l.foldl (fun m p => markOverlaps m p.2) m) ∧
      ∀ i j, cell (l.foldl (fun m p => markOverlaps m p.2) m) i j = true ↔
        cell m i j = true ∨ ∃ e ∈ l,
          1 < (e.2.filter id).length ∧ e.2.getD i false = true ∧ e.2.getD j false = true by
    rw [overlapMatrix, (h map _ isSquare_replicate hmap).2, cell_replicate]
    simp
  intro l
  induction l with
  | nil => intro m hm _; exact ⟨hm, fun i j => by simp⟩
  | cons e l ih =>
    intro m hm hl
    obtain ⟨hsq, hcell⟩ := markOverlaps_spec (w := e.2) hm (hl e List.mem_cons_self)
    obtain ⟨hsq', hcell'⟩ := ih _ hsq fun e' he' => hl e' (List.mem_cons_of_mem _ he')
    refine ⟨hsq', fun i j => ?_⟩
    rw [List.foldl_cons, hcell', hcell]
    simp only [List.mem_cons, or_and_right, exists_or, exists_eq_left, or_assoc]

theorem AmmWriter.lt_length {txs : List BundleTransaction} {j : Nat} {k : Pubkey}
    (h : AmmWriter txs j k) : j < txs.length := by
  obtain ⟨tx, htx, -⟩ := h
  exact (List.getElem?_eq_some_iff.mp htx).1

/-- Two different transactions overlap exactly when they write-lock a common AMM account. -/
theorem overlap_iff {txs : List BundleTransaction} (h : txs.length ≤ maxPacketsPerBundle)
    {i j : Nat} (hij : i ≠ j) :
    cell (overlapMatrix (buildAmmMap txs)) i j = true ↔
      ∃ k, AmmWriter txs i k ∧ AmmWriter txs j k := by
  have hspec := buildAmmMap_spec h
  rw [overlapMatrix_spec fun e he => (hspec.bitmap e he).1]
  constructor
  · rintro ⟨e, he, -, hi, hj⟩
    exact ⟨e.1, (((hspec.bitmap e he).2 i).mp hi).2, (((hspec.bitmap e he).2 j).mp hj).2⟩
  · rintro ⟨k, hik, hjk⟩
    have hi5 : i < maxPacketsPerBundle := lt_of_lt_of_le hik.lt_length h
    have hj5 : j < maxPacketsPerBundle := lt_of_lt_of_le hjk.lt_length h
    obtain ⟨e, he, rfl⟩ := List.mem_map.mp (hspec.present i k hi5 hik)
    have hbi := ((hspec.bitmap e he).2 i).mpr ⟨hi5, hik⟩
    have hbj := ((hspec.bitmap e he).2 j).mpr ⟨hj5, hjk⟩
    exact ⟨e, he, one_lt_length_filter hij hbi hbj, hbi, hbj⟩

/-- A marked cell names two transactions of the bundle, so the `BUG` branches of the last loop
are never taken. -/
theorem lt_length_of_cell {txs : List BundleTransaction} (h : txs.length ≤ maxPacketsPerBundle)
    {i j : Nat} (hc : cell (overlapMatrix (buildAmmMap txs)) i j = true) :
    i < txs.length ∧ j < txs.length := by
  have hspec := buildAmmMap_spec h
  obtain ⟨e, he, -, hi, hj⟩ :=
    (overlapMatrix_spec (fun e he => (hspec.bitmap e he).1) i j).mp hc
  exact ⟨(((hspec.bitmap e he).2 i).mp hi).2.lt_length, (((hspec.bitmap e he).2 j).mp hj).2.lt_length⟩

/-! ## The signer comparison -/

theorem sharesSigner_iff {a b : BundleTransaction} :
    sharesSigner a b = true ↔ ∃ x, x ∈ a.signers ∧ x ∈ b.signers := by
  simp [sharesSigner, List.any_eq_true]

theorem sharesSigner_comm (a b : BundleTransaction) : sharesSigner a b = sharesSigner b a := by
  apply Bool.eq_iff_iff.mpr
  rw [sharesSigner_iff, sharesSigner_iff]
  exact ⟨fun ⟨x, ha, hb⟩ => ⟨x, hb, ha⟩, fun ⟨x, hb, ha⟩ => ⟨x, ha, hb⟩⟩

/-- A sanitized transaction has a fee payer, and it is among its signers. -/
theorem BundleTransaction.signers_ne_nil (tx : BundleTransaction) : tx.signers ≠ [] := by
  have hpos := tx.sanitized.message.numRequiredSignatures_pos
  have hle := tx.sanitized.message.numRequiredSignatures_le
  have htot := tx.sanitized.message.numRequiredSignatures_le_numTotalSignatures
  intro h
  have hlen := congrArg List.length h
  simp only [BundleTransaction.signers, List.length_take, List.length_nil] at hlen
  omega

/-- The diagonal of the overlap matrix is never a front-run: a transaction shares its signers
with itself. -/
theorem sharesSigner_self (a : BundleTransaction) : sharesSigner a a = true := by
  obtain ⟨x, hx⟩ := List.exists_mem_of_ne_nil _ a.signers_ne_nil
  exact sharesSigner_iff.mpr ⟨x, hx, hx⟩

/-- The last loop returns `true` exactly at an overlapping pair with no common signer, when
every overlapping pair names transactions of the bundle. -/
theorem checkPairs_iff (txs : List BundleTransaction) (m : List (List Bool)) :
    ∀ ps : List (Nat × Nat), (∀ p ∈ ps, cell m p.1 p.2 = true → p.1 < txs.length ∧ p.2 < txs.length) →
      (checkPairs txs m ps = true ↔ ∃ p ∈ ps, cell m p.1 p.2 = true ∧
        ∃ a b, txs[p.1]? = some a ∧ txs[p.2]? = some b ∧ sharesSigner a b = false)
  | [], _ => by simp [checkPairs]
  | (i, j) :: rest, hps => by
    have ih := checkPairs_iff txs m rest fun p hp => hps p (List.mem_cons_of_mem _ hp)
    simp only [List.mem_cons, or_and_right, exists_or, exists_eq_left]
    by_cases hc : cell m i j = true
    · obtain ⟨hi, hj⟩ := hps (i, j) List.mem_cons_self hc
      obtain ⟨a, ha⟩ : ∃ a, txs[i]? = some a := ⟨txs[i], List.getElem?_eq_getElem hi⟩
      obtain ⟨b, hb⟩ : ∃ b, txs[j]? = some b := ⟨txs[j], List.getElem?_eq_getElem hj⟩
      by_cases hs : sharesSigner a b = true
      · -- the pair shares a signer: the loop moves on to the next pair
        simp only [checkPairs, hc, ha, hb, hs, if_true, ih]
        constructor
        · exact Or.inr
        · rintro (⟨-, a', b', ha', hb', hs'⟩ | h)
          · obtain rfl := Option.some.inj ha'
            obtain rfl := Option.some.inj hb'
            simp [hs] at hs'
          · exact h
      · have hs' : sharesSigner a b = false := by simpa using hs
        simp only [checkPairs, hc, ha, hb, hs', if_true, Bool.false_eq_true, if_false, true_iff]
        exact Or.inl ⟨trivial, a, b, rfl, rfl, hs'⟩
    · simp only [checkPairs, hc, if_false, ih, Bool.false_eq_true, false_and, false_or]

theorem mem_signerCheckOrder {i j : Nat} :
    (i, j) ∈ signerCheckOrder ↔ i ≤ j ∧ j < maxPacketsPerBundle := by
  simp only [signerCheckOrder, List.mem_flatMap, List.mem_range, List.mem_map, List.mem_range'_1,
    Prod.mk.injEq]
  constructor
  · rintro ⟨i', hi', j', ⟨hij', hj'⟩, rfl, rfl⟩
    omega
  · rintro ⟨hij, hj⟩
    exact ⟨i, by omega, j, ⟨hij, by omega⟩, rfl, rfl⟩

/-! ## The detector, end to end -/

/-- `is_bundle_front_run` on an executed bundle of two to `MAX_PACKETS_PER_BUNDLE` transactions:
`true` exactly when two different transactions write-lock a common AMM account and no key is in
both of their `signers()`. -/
theorem isBundleFrontRun_iff {bundle : LoadAndExecuteBundleOutput} (hok : bundle.executedOk = true)
    (h2 : 2 ≤ bundle.transactions.length)
    (h5 : bundle.transactions.length ≤ maxPacketsPerBundle) :
    isBundleFrontRun bundle = true ↔ ∃ (i j : Nat) (a b : BundleTransaction), i ≠ j ∧
      bundle.transactions[i]? = some a ∧ bundle.transactions[j]? = some b ∧
      (∃ k, a.WritesAmm k ∧ b.WritesAmm k) ∧ sharesSigner a b = false := by
  have hbody : isBundleFrontRun bundle =
      checkPairs bundle.transactions (overlapMatrix (buildAmmMap bundle.transactions))
        signerCheckOrder := by
    have h1 : ¬ bundle.transactions.length ≤ 1 := by omega
    have h6 : ¬ bundle.transactions.length > maxPacketsPerBundle := by omega
    simp [isBundleFrontRun, hok, h1, h6]
  rw [hbody, checkPairs_iff _ _ _ fun p _ hc => lt_length_of_cell h5 hc]
  constructor
  · rintro ⟨⟨i, j⟩, -, hc, a, b, ha, hb, hs⟩
    -- the diagonal is excluded: a transaction always shares its fee payer with itself
    have hij : i ≠ j := by
      rintro rfl
      rw [ha] at hb
      cases hb
      rw [sharesSigner_self] at hs
      exact Bool.noConfusion hs
    obtain ⟨k, ⟨a', ha', hka⟩, ⟨b', hb', hkb⟩⟩ := (overlap_iff h5 hij).mp hc
    rw [ha] at ha'
    rw [hb] at hb'
    cases ha'
    cases hb'
    exact ⟨i, j, a, b, hij, ha, hb, ⟨k, hka, hkb⟩, hs⟩
  · rintro ⟨i, j, a, b, hij, ha, hb, ⟨k, hka, hkb⟩, hs⟩
    have hi : i < maxPacketsPerBundle := lt_of_lt_of_le (List.getElem?_eq_some_iff.mp ha).1 h5
    have hj : j < maxPacketsPerBundle := lt_of_lt_of_le (List.getElem?_eq_some_iff.mp hb).1 h5
    -- the loop visits each unordered pair once, smaller index first
    rcases Nat.lt_or_gt_of_ne hij with hlt | hgt
    · exact ⟨(i, j), mem_signerCheckOrder.mpr ⟨hlt.le, hj⟩,
        (overlap_iff h5 hij).mpr ⟨k, ⟨a, ha, hka⟩, ⟨b, hb, hkb⟩⟩, a, b, ha, hb, hs⟩
    · exact ⟨(j, i), mem_signerCheckOrder.mpr ⟨hgt.le, hi⟩,
        (overlap_iff h5 (Ne.symm hij)).mpr ⟨k, ⟨b, hb, hkb⟩, ⟨a, ha, hka⟩⟩, b, a, hb, ha,
        (sharesSigner_comm b a).trans hs⟩

/-! ## Signers and precompile signatures

The signers of a transaction are the keys at `is_signer` indices, the first
`num_required_signatures` keys. `signers()` takes `num_total_signatures()` keys instead, and
that count adds the first data byte of every secp256k1 and ed25519 instruction; so as soon as a
transaction carries such an instruction, non-signer keys are compared as if they had signed. -/

/-- `key` sits at an `is_signer` index of the transaction. -/
def BundleTransaction.IsSignerKey (tx : BundleTransaction) (key : Pubkey) : Prop :=
  ∃ i, tx.sanitized.message.accountKeys[i]? = some key ∧ tx.sanitized.message.isSigner i = true

/-- Two different transactions write-lock a common AMM account and no key signs both. -/
def FrontRunBySigners (txs : List BundleTransaction) : Prop :=
  ∃ (i j : Nat) (a b : BundleTransaction), i ≠ j ∧ txs[i]? = some a ∧ txs[j]? = some b ∧
    (∃ k, a.WritesAmm k ∧ b.WritesAmm k) ∧ ∀ key, a.IsSignerKey key → ¬ b.IsSignerKey key

/-- Without precompile signatures, `signers()` lists exactly the keys at signer indices. -/
theorem mem_signers_iff {tx : BundleTransaction}
    (h : tx.sanitized.message.numTotalSignatures =
      tx.sanitized.message.header.numRequiredSignatures.toNat) (key : Pubkey) :
    key ∈ tx.signers ↔ tx.IsSignerKey key := by
  simp only [BundleTransaction.signers, BundleTransaction.IsSignerKey, SanitizedMessage.isSigner,
    List.mem_iff_getElem?, List.getElem?_take, h, decide_eq_true_eq]
  constructor
  · rintro ⟨i, hi⟩
    split at hi
    · exact ⟨i, hi, by assumption⟩
    · cases hi
  · rintro ⟨i, hi, hlt⟩
    exact ⟨i, by simp [hlt, hi]⟩

theorem sharesSigner_eq_false_iff {a b : BundleTransaction}
    (ha : a.sanitized.message.numTotalSignatures =
      a.sanitized.message.header.numRequiredSignatures.toNat)
    (hb : b.sanitized.message.numTotalSignatures =
      b.sanitized.message.header.numRequiredSignatures.toNat) :
    sharesSigner a b = false ↔ ∀ key, a.IsSignerKey key → ¬ b.IsSignerKey key := by
  rw [← Bool.not_eq_true, sharesSigner_iff]
  simp only [mem_signers_iff ha, mem_signers_iff hb, not_exists, not_and]

/-- With no precompile signatures in the bundle, the detector flags exactly the AMM write
conflicts between transactions with disjoint signer sets. -/
theorem isBundleFrontRun_iff_frontRunBySigners {bundle : LoadAndExecuteBundleOutput}
    (hok : bundle.executedOk = true) (h2 : 2 ≤ bundle.transactions.length)
    (h5 : bundle.transactions.length ≤ maxPacketsPerBundle)
    (hsig : ∀ tx ∈ bundle.transactions, tx.sanitized.message.numTotalSignatures =
      tx.sanitized.message.header.numRequiredSignatures.toNat) :
    isBundleFrontRun bundle = true ↔ FrontRunBySigners bundle.transactions := by
  rw [isBundleFrontRun_iff hok h2 h5]
  constructor
  · rintro ⟨i, j, a, b, hij, ha, hb, hk, hs⟩
    exact ⟨i, j, a, b, hij, ha, hb, hk, (sharesSigner_eq_false_iff
      (hsig a (List.mem_of_getElem? ha)) (hsig b (List.mem_of_getElem? hb))).mp hs⟩
  · rintro ⟨i, j, a, b, hij, ha, hb, hk, hs⟩
    exact ⟨i, j, a, b, hij, ha, hb, hk, (sharesSigner_eq_false_iff
      (hsig a (List.mem_of_getElem? ha)) (hsig b (List.mem_of_getElem? hb))).mpr hs⟩

/-- A pool owned by the first AMM program, written by two transactions with different fee
payers, each of which also carries a secp256k1 instruction verifying one signature. -/
def precompilePool : Pubkey := ⟨0x33#256⟩

/-- A transaction paid by `payer` that write-locks `precompilePool` and calls the secp256k1
precompile with one signature to verify (data `[1]`). -/
def precompileTx (payer : Pubkey) : BundleTransaction where
  sanitized :=
    { message :=
      { header := ⟨1⟩
        accountKeys := [payer, precompilePool, secp256k1ProgramId]
        instructions := [⟨2, [], [1]⟩]
        isWritableAccountCache := [true, true, false]
        numRequiredSignatures_pos := by decide
        numRequiredSignatures_le := by simp
        programIdIndex_lt := by simp } }
  loaded :=
    { accounts := [(payer, ⟨default⟩), (precompilePool, ⟨⟨0x4bd949c43602c33f207790ed16a3524ca1b9975cf121a2a90cffec7df8b68acd#256⟩⟩),
        (secp256k1ProgramId, ⟨default⟩)] }

/-- The executed bundle of `precompileTx` for two different payers. -/
def precompileBundle : LoadAndExecuteBundleOutput where
  bundleTransactionResults :=
    [{ transactions := [(precompileTx ⟨0x11#256⟩).sanitized, (precompileTx ⟨0x22#256⟩).sanitized]
       processingResults := [.executed (precompileTx ⟨0x11#256⟩).loaded,
         .executed (precompileTx ⟨0x22#256⟩).loaded] }]
  result := true

/-- The signers of `precompileTx payer` are `payer` alone. -/
theorem isSignerKey_precompileTx {payer key : Pubkey} (h : (precompileTx payer).IsSignerKey key) :
    key = payer := by
  obtain ⟨i, hi, hsig⟩ := h
  have hi0 : i = 0 := by
    simp only [SanitizedMessage.isSigner, decide_eq_true_eq] at hsig
    simpa [precompileTx] using hsig
  subst hi0
  simpa [precompileTx] using hi.symm

/-- The detector misses the write conflict of `precompileBundle`: both transactions count the
pool among their `signers()`, because each asks for one precompile signature. -/
theorem isBundleFrontRun_precompileBundle :
    isBundleFrontRun precompileBundle = false ∧ FrontRunBySigners precompileBundle.transactions := by
  refine ⟨by decide, 0, 1, precompileTx ⟨0x11#256⟩, precompileTx ⟨0x22#256⟩, by decide, rfl, rfl,
    ⟨precompilePool, by decide, by decide⟩, ?_⟩
  intro key h0 h1
  have e0 := isSignerKey_precompileTx h0
  have e1 := isSignerKey_precompileTx h1
  rw [e0] at e1
  exact absurd e1 (by decide)

end Agave.BundleStage
