import Mathlib.Data.List.Forall2

/-!
# Traversals in `Option` and `Except`

A `mapM` that succeeds relates its input and its output pointwise (`List.Forall₂`), and a
`foldlM` that succeeds keeps any invariant its step keeps; the invariant may name the elements
already folded, for the facts that depend on their order.
-/

namespace Traverse

variable {ε α β : Type}

/-- `mapM` in `Option` succeeds exactly when every element maps, to the output's element. -/
theorem mapM_eq_some_iff (f : α → Option β) :
    ∀ (l : List α) (l' : List β), l.mapM f = some l' ↔ List.Forall₂ (fun a b => f a = some b) l l'
  | [], l' => by
    cases l' with
    | nil => exact ⟨fun _ => .nil, fun _ => rfl⟩
    | cons b l' => exact ⟨nofun, nofun⟩
  | a :: l, l' => by
    rw [List.mapM_cons]
    cases hf : f a with
    | none =>
      refine ⟨nofun, fun h => ?_⟩
      cases h with
      | cons hab _ => rw [hf] at hab; cases hab
    | some b =>
      cases hl : l.mapM f with
      | none =>
        refine ⟨nofun, fun h => ?_⟩
        cases h with
        | cons _ hrest => rw [(mapM_eq_some_iff f l _).mpr hrest] at hl; cases hl
      | some bs =>
        have hbs := (mapM_eq_some_iff f l bs).mp hl
        constructor
        · rintro ⟨⟩
          exact .cons hf hbs
        · intro h
          cases h with
          | cons hab hrest =>
            rw [hf, Option.some.injEq] at hab
            subst hab
            rw [(mapM_eq_some_iff f l _).mpr hrest, Option.some.injEq] at hl
            subst hl
            rfl

/-- A `mapM` in `Except` that succeeds maps every element to the output's element. -/
theorem forall₂_of_mapM_eq_ok (f : α → Except ε β) :
    ∀ (l : List α) (l' : List β), l.mapM f = .ok l' → List.Forall₂ (fun a b => f a = .ok b) l l'
  | [], l', h => by
    cases h
    exact .nil
  | a :: l, l', h => by
    rw [List.mapM_cons] at h
    cases hf : f a with
    | error e => rw [hf] at h; cases h
    | ok b =>
      rw [hf] at h
      cases hl : l.mapM f with
      | error e => rw [hl] at h; cases h
      | ok bs =>
        rw [hl] at h
        cases h
        exact .cons hf (forall₂_of_mapM_eq_ok f l bs hl)

/-- Two maps agree on lists related pointwise by what they map to. -/
theorem map_eq_map_of_forall₂ {γ : Type} {f : α → γ} {g : β → γ} {l : List α} {l' : List β}
    (h : List.Forall₂ (fun a b => g b = f a) l l') : l'.map g = l.map f := by
  induction h with
  | nil => rfl
  | cons hab _ ih => rw [List.map_cons, List.map_cons, hab, ih]

/-- Every element of the left list of a pointwise relation has a partner in the right list. -/
theorem exists_mem_of_forall₂ {R : α → β → Prop} {l : List α} {l' : List β}
    (h : List.Forall₂ R l l') {a : α} (ha : a ∈ l) : ∃ b ∈ l', R a b := by
  induction h with
  | nil => cases ha
  | @cons a' b l l' hab _ ih =>
    rcases List.mem_cons.mp ha with rfl | ha
    · exact ⟨b, List.mem_cons_self, hab⟩
    · obtain ⟨b', hb', hab'⟩ := ih ha
      exact ⟨b', List.mem_cons_of_mem _ hb', hab'⟩

/-- The loop rule of `foldlM` in `Except`: an invariant of the elements folded so far and of the
accumulator, kept by every step that succeeds, holds when the whole fold succeeds. -/
theorem foldlM_inv (f : β → α → Except ε β) (Inv : List α → β → Prop)
    (hstep : ∀ done a b b', Inv done b → f b a = .ok b' → Inv (done ++ [a]) b') :
    ∀ (rest done : List α) (b r : β), Inv done b → rest.foldlM f b = .ok r → Inv (done ++ rest) r
  | [], done, b, r, hinv, h => by
    cases h
    rw [List.append_nil]
    exact hinv
  | a :: rest, done, b, r, hinv, h => by
    rw [List.foldlM_cons] at h
    cases hf : f b a with
    | error e => rw [hf] at h; cases h
    | ok b' =>
      rw [hf] at h
      have hrun := foldlM_inv f Inv hstep rest (done ++ [a]) b' r (hstep done a b b' hinv hf) h
      rwa [List.append_assoc, List.singleton_append] at hrun

end Traverse
