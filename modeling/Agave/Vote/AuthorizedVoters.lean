import Agave.Lib.SortedMap
import Agave.Vote.Program

/-!
# Authorized voters and the schedule of voter changes

`sdk/program/src/vote/authorized_voters.rs`, and `set_new_authorized_voter` and
`get_and_update_authorized_voter` of `sdk/program/src/vote/state/mod.rs`. A vote account maps
the epoch from which a voter is authorized to the voter. The voter of an epoch is the value at
the greatest key at or below it (`getAuthorizedVoter_eq`): the lookup reads the epoch's own
entry, else the greatest one below. Reading the voter of the current epoch caches it under the
epoch and then purges every earlier key; the cached entry keeps the map from emptying, which
`purge_authorized_voters` asserts. Setting a voter for a target epoch records the voter it
replaces, with the epochs it served, in `prior_voters`, a circular buffer of `MAX_ITEMS` records.

`authorize` passes the clock's epoch as the current epoch and the epoch after the leader
schedule's as the target, so over a run of calls neither goes back and every target is past its
call's current epoch (`Orderly`). From a map with a key at or below the first current epoch and
no key past a target to come (`Ready`), every call finds its voter, the assertion holds, and a
call that sets a voter hands the epochs from its target on to the new voter (`SetsNewVoter`).
A key past the target is not caught by the check for an existing entry: the call then fails
with `InvalidAccountData`.
-/

namespace Agave.Vote

/-- `MAX_ITEMS`: how many prior voters a vote account remembers. -/
def MAX_ITEMS : Nat := 32

/-- `CircBuf`: a fixed array of `MAX_ITEMS` items and the index of the last one written. The
index stays in the array: `default` puts it at the last slot and `append` moves it on modulo
`MAX_ITEMS`, which is what lets its `expect` never fire. -/
structure CircBuf (I : Type) where
  buf : List I
  idx : Nat
  isEmpty : Bool
  length_buf : buf.length = MAX_ITEMS
  idx_lt : idx < MAX_ITEMS

namespace CircBuf

variable {I : Type}

instance [Inhabited I] : Inhabited (CircBuf I) :=
  ⟨⟨List.replicate MAX_ITEMS default, MAX_ITEMS - 1, true, List.length_replicate, by decide⟩⟩

/-- `append`: write the item at the next index round the buffer. -/
def append (c : CircBuf I) (item : I) : CircBuf I where
  buf := c.buf.set ((c.idx + 1) % MAX_ITEMS) item
  idx := (c.idx + 1) % MAX_ITEMS
  isEmpty := false
  length_buf := by rw [List.length_set, c.length_buf]
  idx_lt := Nat.mod_lt _ (by decide)

/-- `last`: the item at the index, unless nothing was ever appended. -/
def last (c : CircBuf I) : Option I := if !c.isEmpty then c.buf[c.idx]? else none

/-- The last item of a buffer is the one appended last. -/
theorem last_append (c : CircBuf I) (item : I) : (c.append item).last = some item := by
  have hlt : (c.idx + 1) % MAX_ITEMS < c.buf.length := by
    rw [c.length_buf]
    exact Nat.mod_lt _ (by decide)
  simp [last, append, List.getElem?_set_self hlt]

end CircBuf

/-- `InstructionError`, the variants that setting a voter returns: a `VoteError` goes out as
`Custom` through `into`, and the signer check that `authorize` passes as `verify` fails with
`MissingRequiredSignature`. -/
inductive InstructionError where
  | invalidAccountData
  | missingRequiredSignature
  | custom (err : VoteError)
  deriving DecidableEq, Repr

/-- `AuthorizedVoters`: the `BTreeMap` from the epoch a voter starts at to the voter. -/
structure AuthorizedVoters where
  authorizedVoters : List (Epoch × Pubkey)
  sorted : SortedMap.Sorted authorizedVoters

namespace AuthorizedVoters

/-- `get_or_calculate_authorized_voter_for_epoch`: the epoch's own voter, else the voter of the
greatest epoch below it; and whether the epoch had an entry. -/
def getOrCalculateAuthorizedVoterForEpoch (av : AuthorizedVoters) (epoch : Epoch) :
    Option (Pubkey × Bool) :=
  match SortedMap.get? epoch av.authorizedVoters with
  | none => (SortedMap.lower? epoch av.authorizedVoters).map fun entry => (entry.2, false)
  | some pubkey => some (pubkey, true)

/-- `get_authorized_voter`. -/
def getAuthorizedVoter (av : AuthorizedVoters) (epoch : Epoch) : Option Pubkey :=
  (av.getOrCalculateAuthorizedVoterForEpoch epoch).map (·.1)

/-- `insert`. -/
def insert (av : AuthorizedVoters) (epoch : Epoch) (authorizedVoter : Pubkey) : AuthorizedVoters :=
  ⟨SortedMap.insert epoch authorizedVoter av.authorizedVoters, SortedMap.sorted_insert av.sorted⟩

/-- `get_and_cache_authorized_voter_for_epoch`: the epoch's voter, written under the epoch when
it came from an earlier one. -/
def getAndCacheAuthorizedVoterForEpoch (av : AuthorizedVoters) (epoch : Epoch) :
    AuthorizedVoters × Option Pubkey :=
  match av.getOrCalculateAuthorizedVoterForEpoch epoch with
  | none => (av, none)
  | some (pubkey, existed) => (if !existed then av.insert epoch pubkey else av, some pubkey)

/-- `purge_authorized_voters`: remove the keys below the current epoch. `none` is the panic of its
`assert!` when no key is left; otherwise it returns `true`, which no caller reads. -/
def purgeAuthorizedVoters (av : AuthorizedVoters) (currentEpoch : Epoch) :
    Option AuthorizedVoters :=
  let purged : AuthorizedVoters :=
    ⟨SortedMap.rangeFrom currentEpoch av.authorizedVoters, SortedMap.sorted_rangeFrom av.sorted⟩
  if purged.authorizedVoters.isEmpty then none else some purged

/-- `contains`. -/
def contains (av : AuthorizedVoters) (epoch : Epoch) : Bool :=
  SortedMap.contains epoch av.authorizedVoters

/-- `last`: the entry of the greatest epoch. -/
def last (av : AuthorizedVoters) : Option (Epoch × Pubkey) := av.authorizedVoters.getLast?

/-! ### The voter of an epoch -/

variable (av : AuthorizedVoters)

/-- The lookup reads the entry of the greatest key at or below the epoch, and says whether that
key is the epoch itself. -/
theorem getOrCalculateAuthorizedVoterForEpoch_eq (epoch : Epoch) :
    av.getOrCalculateAuthorizedVoterForEpoch epoch =
      (SortedMap.floor? epoch av.authorizedVoters).map fun p => (p.2, decide (p.1 = epoch)) := by
  unfold getOrCalculateAuthorizedVoterForEpoch
  cases hget : SortedMap.get? epoch av.authorizedVoters with
  | some pubkey =>
    -- the epoch's own entry is its floor
    have hmem := (SortedMap.get?_eq_some_iff av.sorted).mp hget
    rw [SortedMap.floor?_of_mem av.sorted hmem]
    simp
  | none =>
    -- without an entry of its own, the greatest key below the epoch is its floor
    have habsent := SortedMap.get?_eq_none_iff.mp hget
    rw [SortedMap.lower?_eq_floor? habsent]
    cases hfloor : SortedMap.floor? epoch av.authorizedVoters with
    | none => rfl
    | some p =>
      have hne : p.1 ≠ epoch := habsent p ((SortedMap.floor?_eq_some_iff av.sorted).mp hfloor).1
      simp [hne]

theorem getAuthorizedVoter_eq (epoch : Epoch) :
    av.getAuthorizedVoter epoch = (SortedMap.floor? epoch av.authorizedVoters).map (·.2) := by
  simp [getAuthorizedVoter, getOrCalculateAuthorizedVoterForEpoch_eq, Option.map_map,
    Function.comp_def]

/-- An epoch at or above some key has a voter. -/
theorem getAuthorizedVoter_isSome {epoch : Epoch} {p : Epoch × Pubkey}
    (hp : p ∈ av.authorizedVoters) (hle : p.1 ≤ epoch) :
    ∃ v, av.getAuthorizedVoter epoch = some v := by
  rw [getAuthorizedVoter_eq]
  cases hf : SortedMap.floor? epoch av.authorizedVoters with
  | none => exact absurd hle (SortedMap.floor?_eq_none_iff.mp hf p hp)
  | some f => exact ⟨f.2, rfl⟩

/-- After `insert`, an epoch from the key on whose old voter came from at or below the key gets
the new voter; every other epoch keeps its voter. -/
theorem getAuthorizedVoter_insert (key : Epoch) (pubkey : Pubkey) (e : Epoch) :
    (av.insert key pubkey).getAuthorizedVoter e =
      if key ≤ e ∧ ∀ f ∈ SortedMap.floor? e av.authorizedVoters, f.1 ≤ key then some pubkey
      else av.getAuthorizedVoter e := by
  rw [getAuthorizedVoter_eq, getAuthorizedVoter_eq]
  simp only [insert]
  rw [SortedMap.floor?_insert av.sorted]
  split_ifs <;> rfl

/-- A key past every other one takes every epoch from it on. -/
theorem getAuthorizedVoter_insert_of_le {key : Epoch} (pubkey : Pubkey)
    (hbehind : ∀ p ∈ av.authorizedVoters, p.1 ≤ key) {e : Epoch} (he : key ≤ e) :
    (av.insert key pubkey).getAuthorizedVoter e = some pubkey := by
  rw [getAuthorizedVoter_insert, if_pos]
  refine ⟨he, fun f hf => hbehind f ?_⟩
  exact ((SortedMap.floor?_eq_some_iff av.sorted).mp hf).1

theorem getAuthorizedVoter_insert_of_lt {key : Epoch} (pubkey : Pubkey) {e : Epoch}
    (he : e < key) : (av.insert key pubkey).getAuthorizedVoter e = av.getAuthorizedVoter e := by
  rw [getAuthorizedVoter_insert, if_neg fun h => absurd h.1 (not_le.mpr he)]

/-- Writing an epoch's own voter under it changes no epoch's voter. -/
theorem getAuthorizedVoter_insert_of_getAuthorizedVoter {key : Epoch} {pubkey : Pubkey}
    (h : av.getAuthorizedVoter key = some pubkey) (e : Epoch) :
    (av.insert key pubkey).getAuthorizedVoter e = av.getAuthorizedVoter e := by
  rw [getAuthorizedVoter_insert]
  split_ifs with hcover
  · obtain ⟨hle, hfloor⟩ := hcover
    rw [getAuthorizedVoter_eq] at h ⊢
    -- the floor at `e` lies at or below the key, so it is the floor at the key too
    cases hf : SortedMap.floor? e av.authorizedVoters with
    | none =>
      have hnone : SortedMap.floor? key av.authorizedVoters = none :=
        SortedMap.floor?_eq_none_iff.mpr fun p hp hpk =>
          SortedMap.floor?_eq_none_iff.mp hf p hp (le_trans hpk hle)
      rw [hnone] at h
      cases h
    | some f =>
      rw [SortedMap.floor?_eq_of_le av.sorted hf (hfloor f hf) hle] at h
      exact h.symm
  · rfl

/-- The greatest entry is the voter of an epoch at or above every key. -/
theorem last_eq_getAuthorizedVoter {e : Epoch} (h : ∀ p ∈ av.authorizedVoters, p.1 ≤ e) :
    av.last.map (·.2) = av.getAuthorizedVoter e := by
  rw [getAuthorizedVoter_eq, SortedMap.floor?_eq_getLast? h]
  rfl

/-! ### Caching and purging -/

/-- Caching the voter of an epoch writes it under the epoch and changes no epoch's voter. -/
theorem getAndCacheAuthorizedVoterForEpoch_of_getAuthorizedVoter {epoch : Epoch}
    {pubkey : Pubkey} (h : av.getAuthorizedVoter epoch = some pubkey) :
    ∃ cached, av.getAndCacheAuthorizedVoterForEpoch epoch = (cached, some pubkey) ∧
      (∀ p, p ∈ cached.authorizedVoters ↔
        p = (epoch, pubkey) ∨ (p ∈ av.authorizedVoters ∧ p.1 ≠ epoch)) ∧
      ∀ e, cached.getAuthorizedVoter e = av.getAuthorizedVoter e := by
  have hlookup := h
  rw [getAuthorizedVoter, getOrCalculateAuthorizedVoterForEpoch_eq] at hlookup
  unfold getAndCacheAuthorizedVoterForEpoch
  rw [getOrCalculateAuthorizedVoterForEpoch_eq]
  cases hf : SortedMap.floor? epoch av.authorizedVoters with
  | none =>
    rw [hf] at hlookup
    cases hlookup
  | some f =>
    rw [hf] at hlookup
    have hval : f.2 = pubkey := by simpa using hlookup
    by_cases hkey : f.1 = epoch
    · -- the epoch has its own entry: nothing is written
      have hfeq : f = (epoch, pubkey) := Prod.ext hkey hval
      have hmem : (epoch, pubkey) ∈ av.authorizedVoters :=
        hfeq ▸ ((SortedMap.floor?_eq_some_iff av.sorted).mp hf).1
      refine ⟨av, by simp [hfeq], fun p => ⟨fun hp => ?_, ?_⟩, fun _ => rfl⟩
      · by_cases hpk : p.1 = epoch
        · exact .inl (SortedMap.eq_of_key_eq av.sorted hp hmem hpk)
        · exact .inr ⟨hp, hpk⟩
      · rintro (rfl | ⟨hp, -⟩)
        · exact hmem
        · exact hp
    · refine ⟨av.insert epoch pubkey, by simp [hkey, hval], fun p => SortedMap.mem_insert av.sorted,
        getAuthorizedVoter_insert_of_getAuthorizedVoter av h⟩

/-- Purging below an epoch that has an entry keeps the keys from it on, and their voters. -/
theorem purgeAuthorizedVoters_of_mem {epoch : Epoch} {pubkey : Pubkey}
    (h : (epoch, pubkey) ∈ av.authorizedVoters) :
    ∃ purged, av.purgeAuthorizedVoters epoch = some purged ∧
      (∀ p, p ∈ purged.authorizedVoters ↔ p ∈ av.authorizedVoters ∧ epoch ≤ p.1) ∧
      ∀ e, epoch ≤ e → purged.getAuthorizedVoter e = av.getAuthorizedVoter e := by
  have hkept : (epoch, pubkey) ∈ SortedMap.rangeFrom epoch av.authorizedVoters :=
    SortedMap.mem_rangeFrom.mpr ⟨h, le_rfl⟩
  refine ⟨⟨_, SortedMap.sorted_rangeFrom av.sorted⟩, ?_, fun p => SortedMap.mem_rangeFrom,
    fun e he => ?_⟩
  · -- the epoch's own entry survives, so the `assert!` holds
    have hne : (SortedMap.rangeFrom epoch av.authorizedVoters).isEmpty = false :=
      List.isEmpty_eq_false_iff.mpr (List.ne_nil_of_mem hkept)
    simp [purgeAuthorizedVoters, hne]
  · rw [getAuthorizedVoter_eq, getAuthorizedVoter_eq]
    exact congrArg _ (SortedMap.floor?_rangeFrom av.sorted ⟨_, h, rfl⟩ he)

end AuthorizedVoters

/-- The fields of `VoteState` that setting a voter reads and writes. -/
structure VoterSchedule where
  authorizedVoters : AuthorizedVoters
  priorVoters : CircBuf (Pubkey × Epoch × Epoch)

namespace VoterSchedule

/-- `get_and_update_authorized_voter`: the current epoch's voter, cached under the epoch, and the
earlier keys purged. -/
def getAndUpdateAuthorizedVoter (s : VoterSchedule) (currentEpoch : Epoch) :
    Option (VoterSchedule × Except InstructionError Pubkey) :=
  match s.authorizedVoters.getAndCacheAuthorizedVoterForEpoch currentEpoch with
  | (av, none) => some ({ s with authorizedVoters := av }, .error .invalidAccountData)
  | (av, some pubkey) =>
    (av.purgeAuthorizedVoters currentEpoch).map fun purged =>
      ({ s with authorizedVoters := purged }, .ok pubkey)

/-- `set_new_authorized_voter`. The state is `&mut self`: what `get_and_update_authorized_voter`
wrote stays when a later check fails. -/
def setNewAuthorizedVoter (s : VoterSchedule) (authorizedPubkey : Pubkey)
    (currentEpoch targetEpoch : Epoch) (verify : Pubkey → Except InstructionError Unit) :
    Option (VoterSchedule × Except InstructionError Unit) :=
  match s.getAndUpdateAuthorizedVoter currentEpoch with
  | none => none
  | some (s, .error e) => some (s, .error e)
  | some (s, .ok epochAuthorizedVoter) =>
    match verify epochAuthorizedVoter with
    | .error e => some (s, .error e)
    | .ok () =>
      if s.authorizedVoters.contains targetEpoch then
        some (s, .error (.custom .tooSoonToReauthorize))
      else
        match s.authorizedVoters.last with
        | none => some (s, .error .invalidAccountData)
        | some (latestEpoch, latestAuthorizedPubkey) =>
          if latestAuthorizedPubkey ≠ authorizedPubkey then
            let epochOfLastAuthorizedSwitch := (s.priorVoters.last.map (·.2.2)).getD 0
            if targetEpoch ≤ latestEpoch then some (s, .error .invalidAccountData)
            else
              some ({ authorizedVoters := s.authorizedVoters.insert targetEpoch authorizedPubkey
                      priorVoters := s.priorVoters.append
                        (latestAuthorizedPubkey, epochOfLastAuthorizedSwitch, targetEpoch) },
                .ok ())
          else
            some ({ s with
                    authorizedVoters := s.authorizedVoters.insert targetEpoch authorizedPubkey },
              .ok ())

/-- What `set_new_authorized_voter(authorizedPubkey, currentEpoch, targetEpoch, verify)` should do
from `s` to `s'` with result `r`, where `currentVoter` is the voter of the current epoch: it asks
`verify` about that voter alone; once `verify` agrees it fails as too soon when the target has
an entry, and otherwise succeeds, keeping the voters of the epochs before the target, handing
every epoch from the target on to the new voter, and recording the voter it replaces, if it
replaces one, as serving from the last switch to the target. -/
structure SetsNewVoter (s : VoterSchedule) (authorizedPubkey : Pubkey)
    (currentEpoch targetEpoch : Epoch) (verify : Pubkey → Except InstructionError Unit)
    (currentVoter : Pubkey) (s' : VoterSchedule) (r : Except InstructionError Unit) : Prop where
  voter_current : s.authorizedVoters.getAuthorizedVoter currentEpoch = some currentVoter
  verify_failed : ∀ err, verify currentVoter = .error err → r = .error err
  too_soon : verify currentVoter = .ok () → s.authorizedVoters.contains targetEpoch = true →
    r = .error (.custom .tooSoonToReauthorize)
  scheduled : verify currentVoter = .ok () → s.authorizedVoters.contains targetEpoch = false →
    r = .ok () ∧
    (∀ e, currentEpoch ≤ e → e < targetEpoch →
      s'.authorizedVoters.getAuthorizedVoter e = s.authorizedVoters.getAuthorizedVoter e) ∧
    (∀ e, targetEpoch ≤ e → s'.authorizedVoters.getAuthorizedVoter e = some authorizedPubkey) ∧
    ((s.authorizedVoters.getAuthorizedVoter (targetEpoch - 1) = some authorizedPubkey ∧
        s'.priorVoters = s.priorVoters) ∨
      ∃ old, s.authorizedVoters.getAuthorizedVoter (targetEpoch - 1) = some old ∧
        old ≠ authorizedPubkey ∧
        s'.priorVoters =
          s.priorVoters.append (old, (s.priorVoters.last.map (·.2.2)).getD 0, targetEpoch))

/-- With a key at or below the current epoch, reading its voter succeeds: the voter is cached
under the epoch, the keys below it go, and the epochs from it on keep their voters. -/
theorem getAndUpdateAuthorizedVoter_of_floor (s : VoterSchedule) {c : Epoch}
    (hfloor : ∃ p ∈ s.authorizedVoters.authorizedVoters, p.1 ≤ c) :
    ∃ v u, s.getAndUpdateAuthorizedVoter c = some (u, .ok v) ∧
      s.authorizedVoters.getAuthorizedVoter c = some v ∧ u.priorVoters = s.priorVoters ∧
      (∀ p, p ∈ u.authorizedVoters.authorizedVoters ↔
        p = (c, v) ∨ (p ∈ s.authorizedVoters.authorizedVoters ∧ c < p.1)) ∧
      ∀ e, c ≤ e →
        u.authorizedVoters.getAuthorizedVoter e = s.authorizedVoters.getAuthorizedVoter e := by
  obtain ⟨p, hp, hpc⟩ := hfloor
  obtain ⟨v, hv⟩ := s.authorizedVoters.getAuthorizedVoter_isSome hp hpc
  obtain ⟨cached, hcache, hcmem, hcvoter⟩ :=
    s.authorizedVoters.getAndCacheAuthorizedVoterForEpoch_of_getAuthorizedVoter hv
  obtain ⟨purged, hpurge, hpmem, hpvoter⟩ := cached.purgeAuthorizedVoters_of_mem ((hcmem _).mpr (.inl rfl))
  refine ⟨v, { s with authorizedVoters := purged }, ?_, hv, rfl, fun q => ?_, fun e he => ?_⟩
  · simp [getAndUpdateAuthorizedVoter, hcache, hpurge]
  · show q ∈ purged.authorizedVoters ↔ _
    rw [hpmem q, hcmem q]
    -- the keys from `c` on: the cached entry, or an old one strictly above it
    constructor
    · rintro ⟨rfl | ⟨hq, hqc⟩, hle⟩
      · exact .inl rfl
      · exact .inr ⟨hq, lt_of_le_of_ne hle (Ne.symm hqc)⟩
    · rintro (rfl | ⟨hq, hlt⟩)
      · exact ⟨.inl rfl, le_rfl⟩
      · exact ⟨.inr ⟨hq, ne_of_gt hlt⟩, le_of_lt hlt⟩
  · exact (hpvoter e he).trans (hcvoter e)

/-- A call setting a voter from a map with a key at or below the current epoch and none past the
target does what `SetsNewVoter` says. It leaves the current epoch's entry, and every key it
leaves was there before, is the current epoch or is the target. -/
theorem setNewAuthorizedVoter_spec (s : VoterSchedule) (authorizedPubkey : Pubkey) {c t : Epoch}
    (verify : Pubkey → Except InstructionError Unit)
    (hfloor : ∃ p ∈ s.authorizedVoters.authorizedVoters, p.1 ≤ c)
    (hbehind : ∀ p ∈ s.authorizedVoters.authorizedVoters, p.1 ≤ t) (hct : c < t) :
    ∃ v s' r, s.setNewAuthorizedVoter authorizedPubkey c t verify = some (s', r) ∧
      SetsNewVoter s authorizedPubkey c t verify v s' r ∧
      (c, v) ∈ s'.authorizedVoters.authorizedVoters ∧
      ∀ p ∈ s'.authorizedVoters.authorizedVoters,
        p ∈ s.authorizedVoters.authorizedVoters ∨ p.1 = c ∨ p.1 = t := by
  obtain ⟨v, u, hupd, hv, hprior, humem, huvoter⟩ := s.getAndUpdateAuthorizedVoter_of_floor hfloor
  have hcu : (c, v) ∈ u.authorizedVoters.authorizedVoters := (humem _).mpr (.inl rfl)
  have hukeys : ∀ p ∈ u.authorizedVoters.authorizedVoters,
      p ∈ s.authorizedVoters.authorizedVoters ∨ p.1 = c ∨ p.1 = t := by
    intro p hp
    rcases (humem p).mp hp with rfl | ⟨hps, -⟩
    · exact .inr (.inl rfl)
    · exact .inl hps
  -- the target is past the current epoch, where the update leaves the keys alone
  have hcontains : u.authorizedVoters.contains t = s.authorizedVoters.contains t := by
    rw [Bool.eq_iff_iff]
    simp only [AuthorizedVoters.contains, SortedMap.contains_eq_true_iff]
    constructor
    · rintro ⟨p, hp, hpt⟩
      rcases (humem p).mp hp with rfl | ⟨hps, -⟩
      · exact absurd hpt (ne_of_lt hct)
      · exact ⟨p, hps, hpt⟩
    · rintro ⟨p, hps, hpt⟩
      exact ⟨p, (humem p).mpr (.inr ⟨hps, hpt ▸ hct⟩), hpt⟩
  unfold setNewAuthorizedVoter
  rw [hupd]
  dsimp only
  rcases hver : verify v with err | ⟨⟩
  · refine ⟨v, u, .error err, rfl, ⟨hv, fun err' h => ?_, fun h => ?_, fun h => ?_⟩, hcu, hukeys⟩
    · rw [hver] at h
      cases h
      rfl
    all_goals rw [hver] at h; cases h
  · dsimp only
    by_cases htaken : s.authorizedVoters.contains t = true
    · refine ⟨v, u, .error (.custom .tooSoonToReauthorize), by simp [hcontains, htaken],
        ⟨hv, fun err h => ?_, fun _ _ => rfl, fun _ h => absurd htaken (by simp [h])⟩, hcu, hukeys⟩
      rw [hver] at h
      cases h
    · -- every key is now below the target, so the greatest one is the voter before it
      have hbelow : ∀ p ∈ u.authorizedVoters.authorizedVoters, p.1 ≤ t - 1 := by
        intro p hp
        have hle : p.1 ≤ t := by
          rcases (humem p).mp hp with rfl | ⟨hps, -⟩
          · exact le_of_lt hct
          · exact hbehind p hps
        have hne : p.1 ≠ t := fun hpt => htaken (hcontains ▸ by
          simpa [AuthorizedVoters.contains, SortedMap.contains_eq_true_iff] using ⟨p.2, hpt ▸ hp⟩)
        exact Nat.le_sub_one_of_lt (lt_of_le_of_ne hle hne)
      obtain ⟨⟨L, latest⟩, hlast⟩ : ∃ q, u.authorizedVoters.last = some q :=
        Option.ne_none_iff_exists'.mp fun h => by
          rw [AuthorizedVoters.last, List.getLast?_eq_none_iff] at h
          rw [h] at hcu
          cases hcu
      have hL : L ≤ t - 1 := hbelow _ (List.mem_of_getLast? hlast)
      have hlatest : s.authorizedVoters.getAuthorizedVoter (t - 1) = some latest := by
        rw [← huvoter (t - 1) (Nat.le_sub_one_of_lt hct), ← u.authorizedVoters.last_eq_getAuthorizedVoter hbelow,
          hlast]
        rfl
      have hfree : u.authorizedVoters.contains t = false := by simpa [hcontains] using htaken
      -- the new voter from the target on, the old voters before it
      have hfrom : ∀ e, t ≤ e →
          (u.authorizedVoters.insert t authorizedPubkey).getAuthorizedVoter e =
            some authorizedPubkey := fun e he =>
        u.authorizedVoters.getAuthorizedVoter_insert_of_le authorizedPubkey
          (fun p hp => le_trans (hbelow p hp) (Nat.sub_le t 1)) he
      have hbefore : ∀ e, c ≤ e → e < t →
          (u.authorizedVoters.insert t authorizedPubkey).getAuthorizedVoter e =
            s.authorizedVoters.getAuthorizedVoter e := fun e hce het =>
        (u.authorizedVoters.getAuthorizedVoter_insert_of_lt authorizedPubkey het).trans
          (huvoter e hce)
      have hkeys' : ∀ p ∈ (u.authorizedVoters.insert t authorizedPubkey).authorizedVoters,
          p ∈ s.authorizedVoters.authorizedVoters ∨ p.1 = c ∨ p.1 = t := by
        intro p hp
        rcases SortedMap.mem_insert_of_mem hp with rfl | hpu
        · exact .inr (.inr rfl)
        · exact hukeys p hpu
      have hcu' : (c, v) ∈ (u.authorizedVoters.insert t authorizedPubkey).authorizedVoters :=
        (SortedMap.mem_insert u.authorizedVoters.sorted).mpr (.inr ⟨hcu, ne_of_lt hct⟩)
      have hnotbehind : ¬t ≤ L := by grind
      by_cases hsame : latest = authorizedPubkey
      · refine ⟨v, { u with authorizedVoters := u.authorizedVoters.insert t authorizedPubkey },
          .ok (), by simp [hfree, hlast, hsame], ⟨hv, fun err h => ?_, fun _ h => ?_,
          fun _ _ => ⟨rfl, hbefore, hfrom, .inl ⟨hsame ▸ hlatest, hprior⟩⟩⟩, hcu', hkeys'⟩
        · rw [hver] at h
          cases h
        · exact absurd h htaken
      · refine ⟨v, ⟨u.authorizedVoters.insert t authorizedPubkey, u.priorVoters.append
            (latest, (u.priorVoters.last.map (·.2.2)).getD 0, t)⟩, .ok (),
          by simp [hfree, hlast, hsame, hnotbehind], ⟨hv, fun err h => ?_, fun _ h => ?_,
          fun _ _ => ⟨rfl, hbefore, hfrom, .inr ⟨latest, hlatest, hsame, by rw [hprior]⟩⟩⟩,
          hcu', hkeys'⟩
        · rw [hver] at h
          cases h
        · exact absurd h htaken

end VoterSchedule

/-! ## Runs of calls -/

/-- A call on a vote account's voters: `set_new_authorized_voter` with the check it is given,
or `get_and_update_authorized_voter`. -/
inductive VoterCall where
  | setNewAuthorizedVoter (authorizedPubkey : Pubkey) (currentEpoch targetEpoch : Epoch)
      (verify : Pubkey → Except InstructionError Unit)
  | getAndUpdateAuthorizedVoter (currentEpoch : Epoch)

namespace VoterCall

def currentEpoch : VoterCall → Epoch
  | setNewAuthorizedVoter _ currentEpoch _ _ => currentEpoch
  | getAndUpdateAuthorizedVoter currentEpoch => currentEpoch

def targetEpoch? : VoterCall → Option Epoch
  | setNewAuthorizedVoter _ _ targetEpoch _ => some targetEpoch
  | getAndUpdateAuthorizedVoter _ => none

/-- The state a call leaves, whatever it returns; `none` is a panic. -/
def apply (s : VoterSchedule) : VoterCall → Option VoterSchedule
  | setNewAuthorizedVoter authorizedPubkey currentEpoch targetEpoch verify =>
    (s.setNewAuthorizedVoter authorizedPubkey currentEpoch targetEpoch verify).map (·.1)
  | getAndUpdateAuthorizedVoter currentEpoch => (s.getAndUpdateAuthorizedVoter currentEpoch).map (·.1)

end VoterCall

/-- The calls one after another on one vote state; `none` if one of them panics. -/
def runCalls (s : VoterSchedule) : List VoterCall → Option VoterSchedule
  | [] => some s
  | call :: calls => (call.apply s).bind fun s' => runCalls s' calls

theorem runCalls_append (s : VoterSchedule) (pre post : List VoterCall) :
    runCalls s (pre ++ post) = (runCalls s pre).bind fun s' => runCalls s' post := by
  induction pre generalizing s with
  | nil => rfl
  | cons call pre ih =>
    simp only [List.cons_append, runCalls]
    cases call.apply s with
    | none => rfl
    | some s' => exact ih s'

/-- Calls as `authorize` makes them: the current epochs and the targets never go back, and every
target is past its call's current epoch. -/
structure Orderly (calls : List VoterCall) : Prop where
  current_le : (calls.map VoterCall.currentEpoch).Pairwise (· ≤ ·)
  target_le : (calls.filterMap VoterCall.targetEpoch?).Pairwise (· ≤ ·)
  current_lt_target : ∀ call ∈ calls, ∀ t ∈ call.targetEpoch?, call.currentEpoch < t

namespace Orderly

theorem of_sublist {calls calls' : List VoterCall} (h : Orderly calls')
    (hsub : List.Sublist calls calls') : Orderly calls :=
  ⟨h.current_le.sublist (hsub.map _), h.target_le.sublist (hsub.filterMap _),
    fun call hc => h.current_lt_target call (hsub.subset hc)⟩

variable {call : VoterCall} {rest : List VoterCall}

theorem current_le_of_cons (h : Orderly (call :: rest)) :
    ∀ call' ∈ rest, call.currentEpoch ≤ call'.currentEpoch := by
  have hhead := (List.pairwise_cons.mp (List.map_cons ▸ h.current_le)).1
  exact fun call' h' => hhead _ (List.mem_map_of_mem h')

theorem target_le_of_cons (h : Orderly (call :: rest)) :
    ∀ t ∈ call.targetEpoch?, ∀ call' ∈ rest, ∀ t' ∈ call'.targetEpoch?, t ≤ t' := by
  intro t ht call' h' t' ht'
  have htargets := h.target_le
  rw [List.filterMap_cons, show call.targetEpoch? = some t from ht] at htargets
  exact (List.pairwise_cons.mp htargets).1 t' (List.mem_filterMap.mpr ⟨call', h', ht'⟩)

end Orderly

/-- A state the calls to come can run from: a key at or below all their current epochs, and no
key past any of their targets. -/
structure Ready (s : VoterSchedule) (calls : List VoterCall) : Prop where
  floor : ∃ p ∈ s.authorizedVoters.authorizedVoters, ∀ call ∈ calls, p.1 ≤ call.currentEpoch
  behind : ∀ p ∈ s.authorizedVoters.authorizedVoters, ∀ call ∈ calls, ∀ t ∈ call.targetEpoch?,
    p.1 ≤ t

/-- One call from a map with a key at or below its current epoch and none past its target does
not panic, and leaves an entry at its current epoch and no key but old ones, that epoch and its
target. -/
theorem VoterCall.apply_of_floor (s : VoterSchedule) (call : VoterCall)
    (hfloor : ∃ p ∈ s.authorizedVoters.authorizedVoters, p.1 ≤ call.currentEpoch)
    (hbehind : ∀ p ∈ s.authorizedVoters.authorizedVoters, ∀ t ∈ call.targetEpoch?, p.1 ≤ t)
    (hahead : ∀ t ∈ call.targetEpoch?, call.currentEpoch < t) :
    ∃ s', call.apply s = some s' ∧
      (∃ p ∈ s'.authorizedVoters.authorizedVoters, p.1 = call.currentEpoch) ∧
      ∀ p ∈ s'.authorizedVoters.authorizedVoters, p ∈ s.authorizedVoters.authorizedVoters ∨
        p.1 = call.currentEpoch ∨ p.1 ∈ call.targetEpoch? := by
  cases call with
  | setNewAuthorizedVoter pk c t verify =>
    dsimp only [VoterCall.currentEpoch, VoterCall.targetEpoch?] at hfloor hbehind hahead ⊢
    obtain ⟨v, s', r, hset, -, hcv, hkeys⟩ :=
      s.setNewAuthorizedVoter_spec pk verify hfloor (fun p hp => hbehind p hp t rfl) (hahead t rfl)
    refine ⟨s', by simp [VoterCall.apply, hset], ⟨_, hcv, rfl⟩, fun p hp => ?_⟩
    rcases hkeys p hp with hold | hc | ht
    · exact .inl hold
    · exact .inr (.inl hc)
    · exact .inr (.inr (congrArg some ht.symm))
  | getAndUpdateAuthorizedVoter c =>
    dsimp only [VoterCall.currentEpoch, VoterCall.targetEpoch?] at hfloor hbehind hahead ⊢
    obtain ⟨v, u, hupd, -, -, humem, -⟩ := s.getAndUpdateAuthorizedVoter_of_floor hfloor
    refine ⟨u, by simp [VoterCall.apply, hupd], ⟨_, (humem _).mpr (.inl rfl), rfl⟩,
      fun p hp => ?_⟩
    rcases (humem p).mp hp with rfl | ⟨hps, -⟩
    · exact .inr (.inl rfl)
    · exact .inl hps

/-- The step: a call from a ready state leaves a state ready for the calls after it, with an
entry at its current epoch. -/
theorem Ready.step {s : VoterSchedule} {call : VoterCall} {rest : List VoterCall}
    (hr : Ready s (call :: rest)) (ho : Orderly (call :: rest)) :
    ∃ s', call.apply s = some s' ∧ Ready s' rest ∧
      ∃ p ∈ s'.authorizedVoters.authorizedVoters, p.1 = call.currentEpoch := by
  obtain ⟨p, hp, hpc⟩ := hr.floor
  obtain ⟨s', happly, ⟨q, hq, hqc⟩, hkeys⟩ := call.apply_of_floor s
    ⟨p, hp, hpc call List.mem_cons_self⟩ (fun p hp => hr.behind p hp call List.mem_cons_self)
    (ho.current_lt_target call List.mem_cons_self)
  have hcur := ho.current_le_of_cons
  refine ⟨s', happly, ⟨⟨q, hq, fun call' h' => hqc ▸ hcur call' h'⟩, ?_⟩, q, hq, hqc⟩
  -- an old key was behind the targets already; the current epoch is behind every later
  -- call's, which is behind its target; and the targets do not go back
  intro p' hp' call' h' t' ht'
  rcases hkeys p' hp' with hold | hc | ht
  · exact hr.behind p' hold call' (List.mem_cons_of_mem _ h') t' ht'
  · rw [hc]
    exact le_of_lt (lt_of_le_of_lt (hcur call' h')
      (ho.current_lt_target call' (List.mem_cons_of_mem _ h') t' ht'))
  · exact ho.target_le_of_cons _ ht call' h' t' ht'

/-- The run: calls from a ready state do not panic and leave a state ready for the rest. -/
theorem Ready.run {s : VoterSchedule} {pre rest : List VoterCall} (hr : Ready s (pre ++ rest))
    (ho : Orderly (pre ++ rest)) : ∃ s', runCalls s pre = some s' ∧ Ready s' rest := by
  -- induction on the calls already made, from any ready start
  induction pre generalizing s with
  | nil => exact ⟨s, rfl, hr⟩
  | cons call pre ih =>
    obtain ⟨s₁, happly, hr₁, -⟩ := hr.step ho
    obtain ⟨s', hrun, hr'⟩ := ih hr₁ (ho.of_sublist (List.sublist_cons_self _ _))
    exact ⟨s', by simp [runCalls, happly, hrun], hr'⟩

/-- Over a run of calls as `authorize` makes them, from a map with a key at or below the first
current epoch and no key past a target, no call panics, every call leaves a key at or below its
current epoch, and every call setting a voter does what `SetsNewVoter` says. -/
theorem authorized_voter_schedule (s : VoterSchedule) (calls : List VoterCall)
    (hcurrent : (calls.map VoterCall.currentEpoch).Pairwise (· ≤ ·))
    (htarget : (calls.filterMap VoterCall.targetEpoch?).Pairwise (· ≤ ·))
    (hahead : ∀ call ∈ calls, ∀ t ∈ call.targetEpoch?, call.currentEpoch < t)
    (hleast : ∃ p ∈ s.authorizedVoters.authorizedVoters, ∀ call ∈ calls,
      p.1 ≤ call.currentEpoch)
    (hbehind : ∀ p ∈ s.authorizedVoters.authorizedVoters, ∀ call ∈ calls,
      ∀ t ∈ call.targetEpoch?, p.1 ≤ t) :
    (∃ s', runCalls s calls = some s') ∧
    (∀ pre call post, calls = pre ++ call :: post →
      ∃ s', runCalls s (pre ++ [call]) = some s' ∧
        ∃ p ∈ s'.authorizedVoters.authorizedVoters, p.1 ≤ call.currentEpoch) ∧
    (∀ pre authorizedPubkey c t verify post,
      calls = pre ++ .setNewAuthorizedVoter authorizedPubkey c t verify :: post →
      ∃ s₀ v s' r, runCalls s pre = some s₀ ∧
        s₀.setNewAuthorizedVoter authorizedPubkey c t verify = some (s', r) ∧
        VoterSchedule.SetsNewVoter s₀ authorizedPubkey c t verify v s' r) := by
  have hr : Ready s calls := ⟨hleast, hbehind⟩
  have ho : Orderly calls := ⟨hcurrent, htarget, hahead⟩
  refine ⟨?_, ?_, ?_⟩
  · obtain ⟨s', hrun, -⟩ := @Ready.run s calls [] (by rw [List.append_nil]; exact hr)
      (by rw [List.append_nil]; exact ho)
    exact ⟨s', hrun⟩
  · intro pre call post hsplit
    subst hsplit
    obtain ⟨s₀, hrun, hr₀⟩ := Ready.run hr ho
    obtain ⟨s₁, happly, -, p, hp, hpc⟩ :=
      hr₀.step (ho.of_sublist (List.sublist_append_right pre _))
    refine ⟨s₁, ?_, p, hp, le_of_eq hpc⟩
    rw [runCalls_append, hrun]
    simp [runCalls, happly]
  · intro pre authorizedPubkey c t verify post hsplit
    subst hsplit
    obtain ⟨s₀, hrun, hr₀⟩ := Ready.run hr ho
    have ho₀ := ho.of_sublist (List.sublist_append_right pre _)
    -- this call's own view of the run: a key at or below its epoch, none past its target
    obtain ⟨p, hp, hpc⟩ := hr₀.floor
    obtain ⟨v, s', r, hset, hspec, -⟩ := s₀.setNewAuthorizedVoter_spec authorizedPubkey verify
      ⟨p, hp, hpc _ List.mem_cons_self⟩ (fun p hp => hr₀.behind p hp _ List.mem_cons_self t rfl)
      (ho₀.current_lt_target _ List.mem_cons_self t rfl)
    exact ⟨s₀, v, s', r, hrun, hset, hspec⟩

/-- A vote account whose voter `⟨1⟩` has served since epoch 0: in epoch 1 `⟨2⟩` is set from
epoch 5, the voter of epoch 3 is read, and in epoch 3 `⟨3⟩` is set from epoch 6. -/
def threeCallRun : VoterSchedule × List VoterCall :=
  (⟨⟨[(0, ⟨1⟩)], List.pairwise_singleton _ _⟩, default⟩,
    [.setNewAuthorizedVoter ⟨2⟩ 1 5 fun _ => .ok (), .getAndUpdateAuthorizedVoter 3,
      .setNewAuthorizedVoter ⟨3⟩ 3 6 fun _ => .ok ()])

theorem authorized_voter_schedule_three_calls :
    (∃ s', runCalls threeCallRun.1 threeCallRun.2 = some s') ∧
    (∀ pre call post, threeCallRun.2 = pre ++ call :: post →
      ∃ s', runCalls threeCallRun.1 (pre ++ [call]) = some s' ∧
        ∃ p ∈ s'.authorizedVoters.authorizedVoters, p.1 ≤ call.currentEpoch) ∧
    (∀ pre authorizedPubkey c t verify post,
      threeCallRun.2 = pre ++ .setNewAuthorizedVoter authorizedPubkey c t verify :: post →
      ∃ s₀ v s' r, runCalls threeCallRun.1 pre = some s₀ ∧
        s₀.setNewAuthorizedVoter authorizedPubkey c t verify = some (s', r) ∧
        VoterSchedule.SetsNewVoter s₀ authorizedPubkey c t verify v s' r) :=
  authorized_voter_schedule threeCallRun.1 threeCallRun.2 (by decide) (by decide) (by decide)
    (by decide) (by decide)

/-- A key past the target escapes the check for an existing entry. From voters at epochs 0 and
100, a call in epoch 1 setting a new voter from epoch 50, which has no entry, with a check that
passes, fails with `InvalidAccountData`. -/
theorem setNewAuthorizedVoter_target_behind_latest :
    let s : VoterSchedule :=
      ⟨⟨[(0, ⟨1⟩), (100, ⟨2⟩)], by unfold SortedMap.Sorted; decide⟩, default⟩
    (∃ p ∈ s.authorizedVoters.authorizedVoters, p.1 ≤ 1) ∧ 1 < 50 ∧
      s.authorizedVoters.contains 50 = false ∧
      (s.setNewAuthorizedVoter ⟨3⟩ 1 50 fun _ => .ok ()).map (·.2) =
        some (.error .invalidAccountData) := by
  intro s
  decide

end Agave.Vote
