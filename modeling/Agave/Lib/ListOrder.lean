import Mathlib.Data.List.Basic

/-!
# Precedence in a list

`Before l x y`: `x` occurs before `y` in `l`. On a list without repeats it is a strict total order
of the list's elements. `Unblocked R l x`: nothing before `x` in `l` is `R`-related to it, which is
what a first-come first-served discipline over the relation `R` lets through.

`length_filter_flip` counts what a filter keeps when its predicate changes at one element only.

`Prefixwise P l`: every element of `l` satisfies `P` given the part of `l` before it, as each entry
of an append-only log is checked against the entries before it. A log grows at its end, and
`prefixwise_append_singleton` says what the new entry has to satisfy.
-/

namespace ListOrder

variable {β : Type} {l l₁ l₂ : List β} {x y : β}

/-- `x` occurs before `y` in `l`. -/
def Before (l : List β) (x y : β) : Prop := [x, y].Sublist l

theorem Before.mem_left (h : Before l x y) : x ∈ l := List.mem_of_cons_sublist h

theorem Before.mem_right (h : Before l x y) : y ∈ l :=
  List.mem_of_cons_sublist (List.sublist_of_cons_sublist h)

theorem Before.sublist (h : Before l₁ x y) (hl : l₁.Sublist l₂) : Before l₂ x y := h.trans hl

theorem before_cons_self : Before (x :: l) x y ↔ y ∈ l :=
  List.cons_sublist_cons.trans List.singleton_sublist

/-- Everything of the first part of a list is before everything of the second. -/
theorem before_append (hx : x ∈ l₁) (hy : y ∈ l₂) : Before (l₁ ++ l₂) x y :=
  List.Sublist.append (List.singleton_sublist.mpr hx) (List.singleton_sublist.mpr hy)

theorem before_filter_iff {p : β → Bool} : Before (l.filter p) x y ↔ Before l x y ∧ p x ∧ p y := by
  constructor
  · intro h
    exact ⟨h.sublist List.filter_sublist, (List.mem_filter.mp h.mem_left).2,
      (List.mem_filter.mp h.mem_right).2⟩
  · rintro ⟨h, hx, hy⟩
    have hf := h.filter p
    simp only [List.filter_cons, hx, hy, if_true, List.filter_nil] at hf
    exact hf

/-- The head of a list without repeats has nothing before it. -/
theorem not_before_head (hl : (x :: l).Nodup) : ¬ Before (x :: l) y x := by
  intro h
  have hx : x ∉ l := (List.nodup_cons.mp hl).1
  rcases List.sublist_cons_iff.mp h with h | ⟨r, hr, hsub⟩
  · exact hx (Before.mem_right h)
  · cases hr
    exact hx (List.singleton_sublist.mp hsub)

theorem Before.asymm (hl : l.Nodup) (h : Before l x y) : ¬ Before l y x := by
  induction l with
  | nil => exact absurd h.mem_left (List.not_mem_nil)
  | cons z l ih =>
    intro h'
    have hz : z ∉ l := (List.nodup_cons.mp hl).1
    -- each of the two pairs either starts at the head or lies in the tail
    rcases List.sublist_cons_iff.mp h with h₁ | ⟨r, hr, hsub⟩
    · rcases List.sublist_cons_iff.mp h' with h₂ | ⟨r', hr', hsub'⟩
      · exact ih (List.nodup_cons.mp hl).2 h₁ h₂
      · cases hr'
        exact hz (Before.mem_right h₁)
    · cases hr
      exact not_before_head hl h'

theorem Before.irrefl (hl : l.Nodup) : ¬ Before l x x := fun h => h.asymm hl h

/-- Two different elements of a list are in one order or the other. -/
theorem before_total (hx : x ∈ l) (hy : y ∈ l) (hne : x ≠ y) : Before l x y ∨ Before l y x := by
  induction l with
  | nil => exact absurd hx List.not_mem_nil
  | cons z l ih =>
    rcases List.mem_cons.mp hx with rfl | hx'
    · exact Or.inl (before_cons_self.mpr ((List.mem_cons.mp hy).resolve_left (Ne.symm hne)))
    · rcases List.mem_cons.mp hy with rfl | hy'
      · exact Or.inr (before_cons_self.mpr hx')
      · rcases ih hx' hy' with h | h
        · exact Or.inl (h.sublist (List.sublist_cons_self _ _))
        · exact Or.inr (h.sublist (List.sublist_cons_self _ _))

/-- Nothing before `x` in `l` is related to `x`. -/
def Unblocked (R : β → β → Prop) (l : List β) (x : β) : Prop := ∀ y, Before l y x → ¬ R y x

theorem unblocked_head {R : β → β → Prop} (hl : (x :: l).Nodup) : Unblocked R (x :: l) x :=
  fun _ h => absurd h (not_before_head hl)

/-- Two unblocked elements are unrelated when the relation is symmetric. -/
theorem Unblocked.not_rel {R : β → β → Prop} (hsymm : ∀ a b, R a b → R b a)
    (hx : Unblocked R l x) (hy : Unblocked R l y) (hxl : x ∈ l) (hyl : y ∈ l) (hne : x ≠ y) :
    ¬ R x y := by
  rcases before_total hxl hyl hne with h | h
  · exact hy x h
  · exact fun hxy => hx y h (hsymm x y hxy)

/-- On a list without repeats, a filter whose predicate is turned off at one element it kept and
left alone elsewhere keeps one element less. -/
theorem length_filter_flip {p q : β → Bool} (hl : l.Nodup) (hx : x ∈ l) (hp : p x = true)
    (hq : q x = false) (hpq : ∀ y ∈ l, y ≠ x → q y = p y) :
    (l.filter q).length + 1 = (l.filter p).length := by
  obtain ⟨s, t, rfl⟩ := List.append_of_mem hx
  have hnd := List.nodup_append.mp hl
  have hxs : x ∉ s := fun h => hnd.2.2 x h x List.mem_cons_self rfl
  have hxt : x ∉ t := (List.nodup_cons.mp hnd.2.1).1
  -- the two filters agree away from `x`
  have hs : s.filter q = s.filter p :=
    List.filter_congr fun y hy => hpq y (by simp [hy]) fun h => hxs (h ▸ hy)
  have ht : t.filter q = t.filter p :=
    List.filter_congr fun y hy => hpq y (by simp [hy]) fun h => hxt (h ▸ hy)
  simp only [List.filter_append, List.filter_cons, hp, hq, hs, ht, if_true,
    Bool.false_eq_true, if_false, List.length_append, List.length_cons]
  omega

/-! ### Properties of each position given what precedes it -/

/-- Every element of `l` satisfies `P` given what comes before it. -/
def Prefixwise (P : List β → β → Prop) (l : List β) : Prop :=
  ∀ pre x post, l = pre ++ x :: post → P pre x

variable {P : List β → β → Prop}

theorem prefixwise_nil : Prefixwise P [] := by
  intro pre x post h
  simp at h

theorem prefixwise_append_singleton : Prefixwise P (l ++ [x]) ↔ Prefixwise P l ∧ P l x := by
  constructor
  · intro h
    exact ⟨fun pre y post hl => h pre y (post ++ [x]) (by simp [hl]), h l x [] rfl⟩
  · rintro ⟨hl, hx⟩ pre y post heq
    -- `y` is either the new last element or one of `l`
    rcases List.eq_nil_or_concat post with rfl | ⟨post', z, rfl⟩
    · obtain ⟨rfl, h⟩ := List.append_inj' heq rfl
      cases h
      exact hx
    · rw [List.concat_eq_append, ← List.cons_append, ← List.append_assoc] at heq
      obtain ⟨rfl, -⟩ := List.append_inj' heq rfl
      exact hl pre y post' rfl

end ListOrder
