import Agave.Sdk.VersionedMessage
import Agave.Lib.AssocList

/-!
# Building and signing a legacy transaction

`Transaction::new_signed_with_payer` (`sdk/src/transaction/mod.rs`) over `Message::new`
(`sdk/program/src/message/legacy.rs`) and `CompiledKeys` (`sdk/program/src/message/compiled_keys.rs`).
`CompiledKeys::compile` gathers every key the instructions name, or-ing the signer and writable
marks of their metas, and marks the payer a writable signer; the message lists the signers first,
the payer at their head, and its header counts them. Signing looks each keypair up among those
first keys, writes its signature there, and `sign` panics unless every one of them got one.

What the callers need is `newSignedWithPayer_eq_none_of_signer`: a key that an instruction marks
as a signer and that no keypair handed to the call owns makes the call panic.

A signature is modelled by the key whose keypair made it: signing is deterministic in the keypair
and the message data, and the message data is fixed once the blockhash is. The `BTreeMap` of
`compile` is the list of its entries in key order (`Sorted`), which `entry` keeps. A panic is
`none`.
-/

namespace Agave

/-- `AccountMeta`. -/
structure AccountMeta where
  pubkey : Pubkey
  isSigner : Bool
  isWritable : Bool
  deriving DecidableEq, Repr

/-- `Instruction`. -/
structure Instruction where
  programId : Pubkey
  accounts : List AccountMeta
  data : List UInt8
  deriving DecidableEq, Repr

/-- `Pubkey::to_bytes`: the 32 bytes, most significant first. -/
def Pubkey.toBytes (k : Pubkey) : List UInt8 :=
  (List.range 32).map fun i => (k.toBitVec.toNat / 2 ^ (8 * (31 - i)) % 256).toUInt8

/-- `to_le_bytes` of an unsigned integer `width` bytes wide. -/
def toLeBytes (width n : Nat) : List UInt8 :=
  (List.range width).map fun i => (n / 2 ^ (8 * i) % 256).toUInt8

/-- `CompiledKeyMeta`. -/
structure CompiledKeyMeta where
  isSigner : Bool
  isWritable : Bool
  isInvoked : Bool
  deriving DecidableEq, Repr

/-- `CompiledKeyMeta::default()`: no mark set. -/
instance : Inhabited CompiledKeyMeta := ⟨⟨false, false, false⟩⟩

/-- `CompiledKeys`. -/
structure CompiledKeys where
  payer : Option Pubkey
  keyMetaMap : List (Pubkey × CompiledKeyMeta)

/-- `CompileError`. -/
inductive CompileError where
  | accountIndexOverflow
  | addressTableLookupIndexOverflow
  | unknownInstructionKey (key : Pubkey)
  deriving DecidableEq, Repr

namespace CompiledKeys

/-- `key_meta_map.entry(key).or_default()`, then the update `f` of the entry. The `BTreeMap` is
the list of its entries in the order it iterates them, by key (`Sorted`); a key's 32 bytes compare
as the big-endian number `toBitVec`. The entry of `key` is updated where it is, or a default one
is made at its place in the order. -/
def entryModify (key : Pubkey) (f : CompiledKeyMeta → CompiledKeyMeta) :
    List (Pubkey × CompiledKeyMeta) → List (Pubkey × CompiledKeyMeta)
  | [] => [(key, f default)]
  | (k, keyMeta) :: rest =>
    if key = k then (k, f keyMeta) :: rest
    else if key.toBitVec < k.toBitVec then (key, f default) :: (k, keyMeta) :: rest
    else (k, keyMeta) :: entryModify key f rest

/-- The loop body over `ix.accounts`: `meta.is_signer |= account_meta.is_signer`, and the same for
writable. -/
def markAccount (map : List (Pubkey × CompiledKeyMeta)) (accountMeta : AccountMeta) :
    List (Pubkey × CompiledKeyMeta) :=
  entryModify accountMeta.pubkey (fun keyMeta =>
    { keyMeta with isSigner := keyMeta.isSigner || accountMeta.isSigner,
                   isWritable := keyMeta.isWritable || accountMeta.isWritable }) map

/-- The loop body over the instructions: the program id is marked invoked, then its accounts. -/
def markInstruction (map : List (Pubkey × CompiledKeyMeta)) (ix : Instruction) :
    List (Pubkey × CompiledKeyMeta) :=
  ix.accounts.foldl markAccount
    (entryModify ix.programId (fun keyMeta => { keyMeta with isInvoked := true }) map)

/-- `CompiledKeys::compile`. -/
def compile (instructions : List Instruction) (payer : Option Pubkey) : CompiledKeys :=
  let keyMetaMap := instructions.foldl markInstruction []
  ⟨payer, match payer with
    | some payer =>
      entryModify payer (fun keyMeta => { keyMeta with isSigner := true, isWritable := true })
        keyMetaMap
    | none => keyMetaMap⟩

/-- The `try_into_u8` closure. -/
def tryIntoU8 (num : Nat) : Except CompileError UInt8 :=
  if num ≤ 255 then .ok num.toUInt8 else .error .accountIndexOverflow

/-- The keys whose marks pass `p`, in the map's order: the `filter_map`s of
`try_into_message_components`. -/
def keysWith (p : CompiledKeyMeta → Bool) (map : List (Pubkey × CompiledKeyMeta)) : List Pubkey :=
  map.filterMap fun (key, keyMeta) => if p keyMeta then some key else none

/-- The map after `key_meta_map.remove_entry(payer)`. -/
def keyMetaMapWithoutPayer (c : CompiledKeys) : List (Pubkey × CompiledKeyMeta) :=
  match c.payer with
  | some payer => c.keyMetaMap.filter fun entry => entry.1 != payer
  | none => c.keyMetaMap

/-- `try_into_message_components`: the payer's entry removed, then the payer and the writable
signers, the readonly signers, and the non-signers. -/
def tryIntoMessageComponents (c : CompiledKeys) :
    Except CompileError (Sdk.MessageHeader × List Pubkey) := do
  let keyMetaMap := c.keyMetaMapWithoutPayer
  let writableSignerKeys :=
    c.payer.toList ++ keysWith (fun m => m.isSigner && m.isWritable) keyMetaMap
  let readonlySignerKeys := keysWith (fun m => m.isSigner && !m.isWritable) keyMetaMap
  let writableNonSignerKeys := keysWith (fun m => !m.isSigner && m.isWritable) keyMetaMap
  let readonlyNonSignerKeys := keysWith (fun m => !m.isSigner && !m.isWritable) keyMetaMap
  let signersLen := saturatingAdd USIZE_MAX writableSignerKeys.length readonlySignerKeys.length
  let numRequiredSignatures ← tryIntoU8 signersLen
  let numReadonlySignedAccounts ← tryIntoU8 readonlySignerKeys.length
  let numReadonlyUnsignedAccounts ← tryIntoU8 readonlyNonSignerKeys.length
  pure (⟨numRequiredSignatures, numReadonlySignedAccounts, numReadonlyUnsignedAccounts⟩,
    writableSignerKeys ++ readonlySignerKeys ++ writableNonSignerKeys ++ readonlyNonSignerKeys)

end CompiledKeys

/-- A legacy `Message`. -/
structure Message where
  header : Sdk.MessageHeader
  accountKeys : List Pubkey
  recentBlockhash : Hash
  instructions : List CompiledInstruction

/-- `position`: where a key sits among the message's keys, as a `u8`. The message is compiled
from the instructions' own keys, so the `unwrap` never meets a missing one. -/
def position (keys : List Pubkey) (key : Pubkey) : UInt8 :=
  (keys.idxOf key).toUInt8

/-- `compile_instruction`. -/
def compileInstruction (ix : Instruction) (keys : List Pubkey) : CompiledInstruction :=
  ⟨position keys ix.programId, ix.accounts.map fun accountMeta => position keys accountMeta.pubkey,
    ix.data⟩

/-- `Message::new`, which compiles with `Hash::default()`; `none` is the panic of its `expect`
when a kind of key does not fit a `u8`. -/
def Message.new (instructions : List Instruction) (payer : Option Pubkey) : Option Message :=
  match (CompiledKeys.compile instructions payer).tryIntoMessageComponents with
  | .ok (header, accountKeys) =>
    some ⟨header, accountKeys, default, instructions.map fun ix => compileInstruction ix accountKeys⟩
  | .error _ => none

/-- A `Keypair`, known by its public half. -/
structure Keypair where
  pubkey : Pubkey

/-- The one `TransactionError` signing raises. -/
inductive TransactionError where
  | invalidAccountIndex
  deriving DecidableEq, Repr

/-- The `SignerError`s signing with keypairs raises. -/
inductive SignerError where
  | keypairPubkeyMismatch
  | notEnoughSigners
  | transactionError (err : TransactionError)
  deriving DecidableEq, Repr

/-- A legacy `Transaction`. A signature is the key whose keypair made it, and
`Signature::default()` is `none`. -/
structure Transaction where
  signatures : List (Option Pubkey)
  message : Message

namespace Transaction

/-- `new_unsigned`: one default signature for each required signer. -/
def newUnsigned (message : Message) : Transaction :=
  ⟨List.replicate message.header.numRequiredSignatures.toNat none, message⟩

/-- `get_signing_keypair_positions`: where each key sits among the message's signer keys. -/
def getSigningKeypairPositions (tx : Transaction) (pubkeys : List Pubkey) :
    Except TransactionError (List (Option Nat)) :=
  let numRequiredSignatures := tx.message.header.numRequiredSignatures.toNat
  if tx.message.accountKeys.length < numRequiredSignatures then .error .invalidAccountIndex
  else .ok (pubkeys.map fun pubkey =>
    (tx.message.accountKeys.take numRequiredSignatures).idxOf? pubkey)

/-- One signature written at its position: `self.signatures[positions[i]] = signatures[i]`. -/
def setSignature (signatures : List (Option Pubkey)) (positionKeypair : Nat × Keypair) :
    List (Option Pubkey) :=
  signatures.set positionKeypair.1 (some positionKeypair.2.pubkey)

/-- `try_partial_sign_unchecked`. Signing with a keypair cannot fail. -/
def tryPartialSignUnchecked (tx : Transaction) (keypairs : List Keypair) (positions : List Nat)
    (recentBlockhash : Hash) : Transaction :=
  -- a new blockhash is a new message: the signatures made so far are cleared
  let tx := if recentBlockhash ≠ tx.message.recentBlockhash then
      ⟨tx.signatures.map fun _ => none, { tx.message with recentBlockhash := recentBlockhash }⟩
    else tx
  { tx with signatures := (positions.zip keypairs).foldl setSignature tx.signatures }

/-- `try_partial_sign`: every keypair must be one of the message's signers. -/
def tryPartialSign (tx : Transaction) (keypairs : List Keypair) (recentBlockhash : Hash) :
    Except SignerError Transaction :=
  match tx.getSigningKeypairPositions (keypairs.map (·.pubkey)) with
  | .error err => .error (.transactionError err)
  | .ok positions =>
    if positions.any Option.isNone then .error .keypairPubkeyMismatch
    else .ok (tx.tryPartialSignUnchecked keypairs positions.reduceOption recentBlockhash)

/-- `is_signed`: no signature is left at its default. -/
def isSigned (tx : Transaction) : Bool :=
  tx.signatures.all Option.isSome

/-- `try_sign`. -/
def trySign (tx : Transaction) (keypairs : List Keypair) (recentBlockhash : Hash) :
    Except SignerError Transaction :=
  match tx.tryPartialSign keypairs recentBlockhash with
  | .error err => .error err
  | .ok tx => if !tx.isSigned then .error .notEnoughSigners else .ok tx

/-- `sign`, which panics on any error of `try_sign`. -/
def sign (tx : Transaction) (keypairs : List Keypair) (recentBlockhash : Hash) :
    Option Transaction :=
  match tx.trySign keypairs recentBlockhash with
  | .ok tx => some tx
  | .error _ => none

/-- `Transaction::new`. -/
def new (keypairs : List Keypair) (message : Message) (recentBlockhash : Hash) :
    Option Transaction :=
  (newUnsigned message).sign keypairs recentBlockhash

/-- `Transaction::new_signed_with_payer`. -/
def newSignedWithPayer (instructions : List Instruction) (payer : Option Pubkey)
    (signingKeypairs : List Keypair) (recentBlockhash : Hash) : Option Transaction :=
  (Message.new instructions payer).bind fun message =>
    Transaction.new signingKeypairs message recentBlockhash

end Transaction

/-! ### The signers of a compiled message -/

/-- Some instruction marks `k` as a signer in one of its account metas. -/
def IsSignerKey (instructions : List Instruction) (k : Pubkey) : Prop :=
  ∃ ix ∈ instructions, ∃ accountMeta ∈ ix.accounts,
    accountMeta.pubkey = k ∧ accountMeta.isSigner = true

namespace CompiledKeys

/-- The order the `BTreeMap` keeps its entries in: keys strictly increasing. -/
def Sorted (map : List (Pubkey × CompiledKeyMeta)) : Prop :=
  (map.map Prod.fst).Pairwise fun a b => a.toBitVec < b.toBitVec

theorem sorted_nil : Sorted [] := List.Pairwise.nil

/-- `entry` adds its key, when it is new, and no other. -/
theorem mem_keys_entryModify {key k : Pubkey} {f : CompiledKeyMeta → CompiledKeyMeta} :
    ∀ map : List (Pubkey × CompiledKeyMeta),
      k ∈ (entryModify key f map).map Prod.fst ↔ k ∈ map.map Prod.fst ∨ k = key
  | [] => by simp [entryModify]
  | (k', keyMeta) :: rest => by
    have ih := @mem_keys_entryModify key k f rest
    unfold entryModify
    split_ifs with hkey
    · subst hkey
      simp only [List.map_cons, List.mem_cons]
      tauto
    · simp only [List.map_cons, List.mem_cons]
      tauto
    · simp only [List.map_cons, List.mem_cons, ih]
      tauto

theorem Sorted.nodup {map : List (Pubkey × CompiledKeyMeta)} (h : Sorted map) :
    (map.map Prod.fst).Nodup := by
  refine List.Pairwise.imp ?_ h
  intro a b hlt heq
  subst heq
  bv_omega

/-- `entry` keeps the map sorted: a new key goes in below the first key above it. -/
theorem Sorted.entryModify {map : List (Pubkey × CompiledKeyMeta)} (h : Sorted map) (key : Pubkey)
    (f : CompiledKeyMeta → CompiledKeyMeta) : Sorted (CompiledKeys.entryModify key f map) := by
  induction map with
  | nil => exact List.pairwise_singleton _ _
  | cons e rest ih =>
    obtain ⟨k, keyMeta⟩ := e
    obtain ⟨hk, hrest⟩ := List.pairwise_cons.mp h
    unfold CompiledKeys.entryModify
    split_ifs with hkey hlt
    · subst hkey
      exact h
    · refine List.pairwise_cons.mpr ⟨fun x hx => ?_, h⟩
      rcases List.mem_cons.mp hx with rfl | hx
      · exact hlt
      · have := hk x hx
        bv_omega
    · -- `k` is below the new key
      have hne : k.toBitVec ≠ key.toBitVec := fun heq => hkey (by cases key; cases k; simp_all)
      have hkkey : k.toBitVec < key.toBitVec := by bv_omega
      refine List.pairwise_cons.mpr ⟨fun x hx => ?_, ih hrest⟩
      rcases (mem_keys_entryModify rest).mp hx with hx | rfl
      · exact hk x hx
      · exact hkkey

/-- `k` has an entry in the map, with the signer mark. -/
def SignerIn (map : List (Pubkey × CompiledKeyMeta)) (k : Pubkey) : Prop :=
  ∃ keyMeta, AssocList.get? k map = some keyMeta ∧ keyMeta.isSigner = true

/-- In a sorted map the entry of `key` is updated, or made from the default and updated; no
other entry changes. -/
theorem get?_entryModify (key k : Pubkey) (f : CompiledKeyMeta → CompiledKeyMeta) :
    ∀ map : List (Pubkey × CompiledKeyMeta), Sorted map → AssocList.get? k (entryModify key f map) =
      if k = key then some (f ((AssocList.get? k map).getD default)) else AssocList.get? k map
  | [], _ => by
    by_cases h : k = key
    · subst h
      simp [entryModify, AssocList.get?_cons]
    · simp [entryModify, AssocList.get?_cons, h, Ne.symm h]
  | (k', keyMeta) :: rest, hs => by
    obtain ⟨hk', hrest⟩ := List.pairwise_cons.mp hs
    by_cases hkey : key = k'
    · subst hkey
      by_cases h : k = key
      · subst h
        simp [entryModify, AssocList.get?_cons]
      · simp [entryModify, AssocList.get?_cons, h, Ne.symm h]
    by_cases hlt : key.toBitVec < k'.toBitVec
    · -- a new key, below every key of the map, so it had no entry
      have hnone : AssocList.get? key ((k', keyMeta) :: rest) = none := by
        cases hget : AssocList.get? key ((k', keyMeta) :: rest) with
        | none => rfl
        | some v =>
          rcases List.mem_cons.mp (AssocList.mem_of_get? hget) with heq | hmem
          · exact absurd (Prod.mk.inj heq).1 hkey
          · have := hk' key (List.mem_map_of_mem hmem)
            bv_omega
      by_cases h : k = key
      · subst h
        simp [entryModify, AssocList.get?_cons, hkey, hlt, hnone]
      · simp [entryModify, AssocList.get?_cons, hkey, hlt, h, Ne.symm h]
    · have ih := get?_entryModify key k f rest hrest
      by_cases h : k = k'
      · subst h
        simp [entryModify, AssocList.get?_cons, hkey, hlt, Ne.symm hkey]
      · simp only [entryModify, hkey, hlt, if_false, AssocList.get?_cons, Ne.symm h, ih]

/-- An update that keeps the signer mark keeps every signer. -/
theorem SignerIn.entryModify {map : List (Pubkey × CompiledKeyMeta)} {k : Pubkey}
    (h : SignerIn map k) (hs : Sorted map) (key : Pubkey) {f : CompiledKeyMeta → CompiledKeyMeta}
    (hf : ∀ keyMeta, keyMeta.isSigner = true → (f keyMeta).isSigner = true) :
    SignerIn (CompiledKeys.entryModify key f map) k := by
  obtain ⟨keyMeta, hlookup, hsigner⟩ := h
  rw [SignerIn, get?_entryModify _ _ _ _ hs]
  by_cases hk : k = key
  · subst hk
    exact ⟨f keyMeta, by simp [hlookup], hf keyMeta hsigner⟩
  · exact ⟨keyMeta, by simp [hk, hlookup], hsigner⟩

/-- An update that sets the signer mark makes its key a signer. -/
theorem signerIn_entryModify_self (k : Pubkey) {f : CompiledKeyMeta → CompiledKeyMeta}
    (hf : ∀ keyMeta, (f keyMeta).isSigner = true) {map : List (Pubkey × CompiledKeyMeta)}
    (hs : Sorted map) : SignerIn (entryModify k f map) k := by
  rw [SignerIn, get?_entryModify _ _ _ _ hs]
  exact ⟨f ((AssocList.get? k map).getD default), by simp, hf _⟩

/-- After the accounts of an instruction, the signers are those of before and every key a meta
marks as a signer. -/
theorem Sorted.foldl_markAccount :
    ∀ (accounts : List AccountMeta) {map : List (Pubkey × CompiledKeyMeta)}, Sorted map →
      Sorted (accounts.foldl markAccount map)
  | [], _, h => h
  | _ :: rest, _, h => Sorted.foldl_markAccount rest (h.entryModify _ _)

theorem Sorted.foldl_markInstruction :
    ∀ (instructions : List Instruction) {map : List (Pubkey × CompiledKeyMeta)}, Sorted map →
      Sorted (instructions.foldl markInstruction map)
  | [], _, h => h
  | ix :: rest, _, h =>
    Sorted.foldl_markInstruction rest (Sorted.foldl_markAccount ix.accounts (h.entryModify _ _))

theorem signerIn_foldl_markAccount {k : Pubkey} :
    ∀ (accounts : List AccountMeta) (map : List (Pubkey × CompiledKeyMeta)), Sorted map →
      (SignerIn map k ∨ ∃ accountMeta ∈ accounts,
        accountMeta.pubkey = k ∧ accountMeta.isSigner = true) →
      SignerIn (accounts.foldl markAccount map) k
  | [], _, _, h => by simpa using h
  | accountMeta :: rest, map, hs, h => by
    rw [List.foldl_cons]
    apply signerIn_foldl_markAccount rest _ (hs.entryModify _ _)
    rcases h with h | ⟨a, ha, hkey, hsigner⟩
    · exact Or.inl (h.entryModify hs _ fun keyMeta hm => by simp [hm])
    · rcases List.mem_cons.mp ha with rfl | ha
      · left
        subst hkey
        exact signerIn_entryModify_self _ (fun keyMeta => by simp [hsigner]) hs
      · exact Or.inr ⟨a, ha, hkey, hsigner⟩

theorem signerIn_foldl_markInstruction {k : Pubkey} :
    ∀ (instructions : List Instruction) (map : List (Pubkey × CompiledKeyMeta)), Sorted map →
      (SignerIn map k ∨ IsSignerKey instructions k) →
      SignerIn (instructions.foldl markInstruction map) k
  | [], _, _, h => by simpa [IsSignerKey] using h
  | ix :: rest, map, hs, h => by
    rw [List.foldl_cons]
    apply signerIn_foldl_markInstruction rest _ (Sorted.foldl_markInstruction [ix] hs)
    have hs' := hs.entryModify ix.programId fun keyMeta => { keyMeta with isInvoked := true }
    rcases h with h | ⟨ix', hix', a, ha, hkey, hsigner⟩
    · -- marking the program id invoked leaves every signer mark as it was
      exact Or.inl (signerIn_foldl_markAccount _ _ hs' (Or.inl (h.entryModify hs _ fun _ hm => hm)))
    · rcases List.mem_cons.mp hix' with rfl | hix'
      · exact Or.inl (signerIn_foldl_markAccount _ _ hs' (Or.inr ⟨a, ha, hkey, hsigner⟩))
      · exact Or.inr ⟨ix', hix', a, ha, hkey, hsigner⟩

/-- The payer and every key an instruction marks as a signer are signers of the compiled map. -/
theorem signerIn_compile {instructions : List Instruction} {payer : Option Pubkey} {k : Pubkey}
    (hk : IsSignerKey instructions k ∨ payer = some k) :
    SignerIn (compile instructions payer).keyMetaMap k := by
  have hs : Sorted (instructions.foldl markInstruction []) :=
    Sorted.foldl_markInstruction instructions sorted_nil
  have hfold : IsSignerKey instructions k →
      SignerIn (instructions.foldl markInstruction []) k :=
    fun h => signerIn_foldl_markInstruction _ _ sorted_nil (Or.inr h)
  cases payer with
  | none =>
    rcases hk with hk | hk
    · exact hfold hk
    · cases hk
  | some payer =>
    rcases hk with hk | hk
    · exact (hfold hk).entryModify hs _ fun keyMeta _ => rfl
    · cases hk
      exact signerIn_entryModify_self _ (fun keyMeta => rfl) hs

theorem tryIntoU8_eq_ok {num : Nat} {u : UInt8} (h : tryIntoU8 num = .ok u) : u.toNat = num := by
  unfold tryIntoU8 at h
  split at h
  · cases h
    simp only [Nat.toUInt8, UInt8.toNat_ofNat']
    omega
  · cases h

theorem mem_keysWith {p : CompiledKeyMeta → Bool} {map : List (Pubkey × CompiledKeyMeta)}
    {k : Pubkey} {keyMeta : CompiledKeyMeta} (h : (k, keyMeta) ∈ map) (hp : p keyMeta = true) :
    k ∈ keysWith p map :=
  List.mem_filterMap.mpr ⟨(k, keyMeta), h, by simp [hp]⟩

/-- Removing the payer's entry keeps every other entry. -/
theorem mem_keyMetaMapWithoutPayer {c : CompiledKeys} {k : Pubkey} {keyMeta : CompiledKeyMeta}
    (h : (k, keyMeta) ∈ c.keyMetaMap) (hpayer : c.payer ≠ some k) :
    (k, keyMeta) ∈ c.keyMetaMapWithoutPayer := by
  unfold keyMetaMapWithoutPayer
  cases hp : c.payer with
  | none => exact h
  | some payer =>
    have hne : k ≠ payer := fun heq => hpayer (by rw [hp, heq])
    exact List.mem_filter.mpr ⟨h, by simpa using hne⟩

/-- A signer of the map, or the payer, is among the first `num_required_signatures` keys of the
message. -/
theorem mem_take_of_signerIn {c : CompiledKeys} {header : Sdk.MessageHeader} {keys : List Pubkey}
    {k : Pubkey} (h : c.tryIntoMessageComponents = .ok (header, keys))
    (hk : SignerIn c.keyMetaMap k ∨ c.payer = some k) :
    k ∈ keys.take header.numRequiredSignatures.toNat := by
  unfold tryIntoMessageComponents at h
  simp only [bind, Except.bind, pure, Except.pure] at h
  split at h
  · cases h
  rename_i numRequiredSignatures hsigners
  split at h
  · cases h
  split at h
  · cases h
  cases h
  -- the signers come first, and the header counts exactly them
  have hlen := tryIntoU8_eq_ok hsigners
  have hbound := numRequiredSignatures.toNat_lt
  simp only [saturatingAdd, USIZE_MAX] at hlen
  rw [min_eq_left, ← List.length_append] at hlen
  swap
  · omega
  rw [hlen, ← List.prefix_iff_eq_take.mp ((List.prefix_append _ _).trans (List.prefix_append _ _))]
  obtain ⟨keyMeta, hlookup, hsigner⟩ | hpayer := hk
  · by_cases hpayer : c.payer = some k
    · simp [hpayer]
    have hmem := mem_keyMetaMapWithoutPayer (AssocList.mem_of_get? hlookup) hpayer
    cases hw : keyMeta.isWritable
    · exact List.mem_append_right _ (mem_keysWith hmem (by simp [hsigner, hw]))
    · exact List.mem_append_left _
        (List.mem_append_right _ (mem_keysWith hmem (by simp [hsigner, hw])))
  · simp [hpayer]

end CompiledKeys

namespace Transaction

/-- Writing signatures at other positions leaves position `j` as it was. -/
theorem getElem?_foldl_setSignature {j : Nat} :
    ∀ (pairs : List (Nat × Keypair)) (signatures : List (Option Pubkey)),
      (∀ pair ∈ pairs, pair.1 ≠ j) → (pairs.foldl setSignature signatures)[j]? = signatures[j]?
  | [], _, _ => rfl
  | pair :: rest, signatures, h => by
    have hrest : ∀ p ∈ rest, p.1 ≠ j := fun p hp => h p (List.mem_cons_of_mem _ hp)
    rw [List.foldl_cons, getElem?_foldl_setSignature rest _ hrest, setSignature,
      List.getElem?_set_ne (h pair List.mem_cons_self)]

/-- `try_partial_sign` signs only at positions where one of the keypairs' keys sits among the
signer keys. -/
theorem tryPartialSign_eq_ok {tx tx' : Transaction} {keypairs : List Keypair}
    {recentBlockhash : Hash} (h : tx.tryPartialSign keypairs recentBlockhash = .ok tx') :
    ∃ positions : List Nat, tx' = tx.tryPartialSignUnchecked keypairs positions recentBlockhash ∧
      ∀ position ∈ positions, ∃ keypair ∈ keypairs,
        (tx.message.accountKeys.take tx.message.header.numRequiredSignatures.toNat)[position]? =
          some keypair.pubkey := by
  unfold tryPartialSign at h
  split at h
  · cases h
  rename_i positions hpositions
  split at h
  · cases h
  cases h
  refine ⟨positions.reduceOption, rfl, fun position hposition => ?_⟩
  unfold getSigningKeypairPositions at hpositions
  dsimp only at hpositions
  split at hpositions
  · cases hpositions
  cases hpositions
  obtain ⟨pubkey, hpubkey, hidx⟩ :=
    List.mem_map.mp (List.reduceOption_mem_iff.mp hposition)
  obtain ⟨keypair, hkeypair, rfl⟩ := List.mem_map.mp hpubkey
  obtain ⟨hlt, hat, -⟩ := List.idxOf?_eq_some_iff.mp hidx
  exact ⟨keypair, hkeypair, List.getElem?_eq_some_iff.mpr ⟨hlt, hat⟩⟩

/-- A signer key that no keypair owns keeps its default signature, so signing panics. -/
theorem new_eq_none_of_signer {keypairs : List Keypair} {message : Message}
    {recentBlockhash : Hash} {k : Pubkey}
    (hk : k ∈ message.accountKeys.take message.header.numRequiredSignatures.toNat)
    (hkeypairs : ∀ keypair ∈ keypairs, keypair.pubkey ≠ k) :
    Transaction.new keypairs message recentBlockhash = none := by
  obtain ⟨j, hj⟩ := List.mem_iff_getElem?.mp hk
  have hjn : j < message.header.numRequiredSignatures.toNat := by
    have := (List.getElem?_eq_some_iff.mp hj).1
    simp only [List.length_take] at this
    omega
  -- whatever `try_partial_sign` returns leaves the slot of `k` at its default
  have hunsigned : ∀ tx', (newUnsigned message).tryPartialSign keypairs recentBlockhash = .ok tx' →
      tx'.isSigned = false := by
    intro tx' htx'
    obtain ⟨positions, rfl, hpositions⟩ := tryPartialSign_eq_ok htx'
    have hne : ∀ pair ∈ positions.zip keypairs, pair.1 ≠ j := by
      intro pair hpair hpj
      obtain ⟨keypair, hkeypair, hat⟩ := hpositions pair.1 (List.of_mem_zip hpair).1
      rw [hpj] at hat
      exact hkeypairs keypair hkeypair (Option.some.inj (hat.symm.trans hj))
    have hslot : ((newUnsigned message).tryPartialSignUnchecked keypairs positions
        recentBlockhash).signatures[j]? = some none := by
      unfold tryPartialSignUnchecked newUnsigned
      rw [getElem?_foldl_setSignature _ _ hne]
      split <;> simp [hjn]
    rw [isSigned, List.all_eq_false]
    exact ⟨none, List.mem_of_getElem? hslot, by simp⟩
  unfold Transaction.new sign trySign
  cases htry : (newUnsigned message).tryPartialSign keypairs recentBlockhash with
  | error err => rfl
  | ok tx' => simp [hunsigned tx' htry]

/-- `Transaction::new_signed_with_payer` panics when the payer or a key some instruction marks as
a signer is owned by none of the keypairs. -/
theorem newSignedWithPayer_eq_none_of_signer {instructions : List Instruction}
    {payer : Option Pubkey} {keypairs : List Keypair} {recentBlockhash : Hash} {k : Pubkey}
    (hk : IsSignerKey instructions k ∨ payer = some k)
    (hkeypairs : ∀ keypair ∈ keypairs, keypair.pubkey ≠ k) :
    newSignedWithPayer instructions payer keypairs recentBlockhash = none := by
  unfold newSignedWithPayer Message.new
  split
  · rename_i header accountKeys hcomponents
    exact new_eq_none_of_signer (CompiledKeys.mem_take_of_signerIn hcomponents
      (Or.inl (CompiledKeys.signerIn_compile hk))) hkeypairs
  · rfl

end Transaction

end Agave
