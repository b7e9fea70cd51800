import Mathlib

/-! A registry that publishes entries under identifiers. An identifier is used once; its entry can
be marked and withdrawn, and never changes otherwise. -/

namespace Accel.Data

variable {I R N C : Type}

/-- A record with named contents. -/
@[ext] structure Entry (R N C : Type) where
  record : R
  files : N → Option C

@[ext] structure Registry (I R N C : Type) where
  used : Set I
  entries : I → Option (Entry R N C)
  entry_used : ∀ i e, entries i = some e → i ∈ used

namespace Registry

/-- Nothing was ever published. -/
def empty : Registry I R N C := ⟨∅, fun _ => none, fun _ _ h => by cases h⟩

instance : Inhabited (Registry I R N C) := ⟨empty⟩

variable [DecidableEq I] [DecidableEq N]

def mark (n : N) (c : C) (e : Entry R N C) : Entry R N C :=
  { e with files := Function.update e.files n (some c) }

theorem mark_mark (n : N) (c : C) (e : Entry R N C) : mark n c (mark n c e) = mark n c e := by
  simp only [mark, Function.update_idem]

/-- The identifier is used without anything to be found under it. -/
def claim (r : Registry I R N C) (i : I) : Registry I R N C where
  used := insert i r.used
  entries := r.entries
  entry_used := fun j e h => Set.mem_insert_of_mem i (r.entry_used j e h)

def publish (r : Registry I R N C) (i : I) (e : Entry R N C) : Registry I R N C where
  used := insert i r.used
  entries := Function.update r.entries i (some e)
  entry_used := fun j e' h => by
    by_cases hj : j = i
    · rw [hj]
      exact Set.mem_insert i r.used
    · rw [Function.update_of_ne hj] at h
      exact Set.mem_insert_of_mem i (r.entry_used j e' h)

def withdraw (r : Registry I R N C) (i : I) : Registry I R N C where
  used := r.used
  entries := Function.update r.entries i none
  entry_used := fun j e h => by
    by_cases hj : j = i
    · rw [hj, Function.update_self] at h
      cases h
    · rw [Function.update_of_ne hj] at h
      exact r.entry_used j e h

/-- The entry under `i`, if there is one, gets the content `c` under the name `n`. -/
def pin (r : Registry I R N C) (n : N) (c : C) (i : I) : Registry I R N C where
  used := r.used
  entries := Function.update r.entries i ((r.entries i).map (mark n c))
  entry_used := fun j e h => by
    by_cases hj : j = i
    · rw [hj, Function.update_self] at h
      obtain ⟨e', he', -⟩ := Option.map_eq_some_iff.1 h
      rw [hj]
      exact r.entry_used i e' he'
    · rw [Function.update_of_ne hj] at h
      exact r.entry_used j e h

/-- One change. Only what `Pub` allows is published, and only under a new identifier. -/
inductive Change (Pub : I → Entry R N C → Prop) (n : N) (c : C) :
    Registry I R N C → Registry I R N C → Prop
  | claim {r : Registry I R N C} {i : I} (h : i ∉ r.used) : Change Pub n c r (r.claim i)
  | publish {r : Registry I R N C} {i : I} {e : Entry R N C} (h : i ∉ r.used) (hp : Pub i e) :
      Change Pub n c r (r.publish i e)
  | withdraw {r : Registry I R N C} {i : I} : Change Pub n c r (r.withdraw i)
  | pin {r : Registry I R N C} {i : I} : Change Pub n c r (r.pin n c i)

/-- A run of the registry. -/
abbrev Later (Pub : I → Entry R N C → Prop) (n : N) (c : C) :
    Registry I R N C → Registry I R N C → Prop := Relation.ReflTransGen (Change Pub n c)

variable {Pub : I → Entry R N C → Prop} {n : N} {c : C} {r r' : Registry I R N C} {i : I}
  {e : Entry R N C}

theorem Change.used_subset (h : Change Pub n c r r') : r.used ⊆ r'.used := by
  cases h with
  | claim h => exact Set.subset_insert _ _
  | publish h hp => exact Set.subset_insert _ _
  | withdraw => exact subset_rfl
  | pin => exact subset_rfl

theorem Later.used_subset (h : Later Pub n c r r') : r.used ⊆ r'.used := by
  induction h with
  | refl => exact subset_rfl
  | tail _ hstep ih => exact ih.trans hstep.used_subset

omit [DecidableEq N] in
theorem withdraw_none {j : I} (h : r.entries i = none) : (r.withdraw j).entries i = none := by
  show Function.update r.entries j none i = none
  by_cases hj : i = j
  · rw [hj, Function.update_self]
  · rw [Function.update_of_ne hj, h]

theorem pin_none {j : I} (h : r.entries i = none) : (r.pin n c j).entries i = none := by
  show Function.update r.entries j ((r.entries j).map (mark n c)) i = none
  by_cases hj : i = j
  · rw [← hj, Function.update_self, h]
    rfl
  · rw [Function.update_of_ne hj, h]

/-- What a used identifier can show after a change: nothing, its entry, or its marked entry. -/
theorem Change.entry (h : Change Pub n c r r') (hi : i ∈ r.used) :
    r'.entries i = none ∨ r'.entries i = r.entries i ∨
      r'.entries i = (r.entries i).map (mark n c) := by
  cases h with
  | claim h => exact .inr (.inl rfl)
  | publish h hp =>
    right
    left
    apply Function.update_of_ne
    rintro rfl
    exact h hi
  | @withdraw j =>
    by_cases hj : i = j
    · left
      rw [hj]
      exact Function.update_self ..
    · right
      left
      exact Function.update_of_ne hj ..
  | @pin j =>
    right
    by_cases hj : i = j
    · right
      rw [hj]
      exact Function.update_self ..
    · left
      exact Function.update_of_ne hj ..

/-- An identifier without an entry never gets one again. -/
theorem Later.gone (h : Later Pub n c r r') (hi : i ∈ r.used) (hnone : r.entries i = none) :
    r'.entries i = none := by
  induction h with
  | refl => exact hnone
  | tail hrun hstep ih =>
    have hused := Later.used_subset hrun hi
    rcases hstep.entry hused with h | h | h
    · exact h
    · rw [h, ih]
    · rw [h, ih]
      rfl

/-- An entry stays as it is, gets the mark, or is gone. -/
theorem Later.entry (h : Later Pub n c r r') (he : r.entries i = some e) :
    r'.entries i = none ∨ r'.entries i = some e ∨ r'.entries i = some (mark n c e) := by
  have hi := r.entry_used i e he
  induction h with
  | refl => exact .inr (.inl he)
  | tail hrun hstep ih =>
    have hused := Later.used_subset hrun hi
    rcases hstep.entry hused with h | h | h
    · exact .inl h
    · rw [h]
      exact ih
    · rw [h]
      rcases ih with ih | ih | ih <;> rw [ih]
      · exact .inl rfl
      · exact .inr (.inr rfl)
      · exact .inr (.inr (congrArg some (mark_mark n c e)))

/-- Everything that is found was published, and is marked at most. -/
def Sound (Pub : I → Entry R N C → Prop) (n : N) (c : C) (r : Registry I R N C) : Prop :=
  ∀ i e, r.entries i = some e → ∃ e₀, Pub i e₀ ∧ (e = e₀ ∨ e = mark n c e₀)

theorem Change.sound (h : Change Pub n c r r') (hr : Sound Pub n c r) : Sound Pub n c r' := by
  intro i e he
  by_cases hi : i ∈ r.used
  · rcases h.entry hi with h' | h' | h'
    · cases he.symm.trans h'
    · exact hr i e (h'.symm.trans he)
    · obtain ⟨e₁, he₁, rfl⟩ := Option.map_eq_some_iff.1 (h'.symm.trans he)
      obtain ⟨e₀, hp, rfl | rfl⟩ := hr i e₁ he₁
      · exact ⟨e₁, hp, .inr rfl⟩
      · exact ⟨e₀, hp, .inr (mark_mark n c e₀)⟩
  · have hnone : r.entries i = none := by
      by_contra hsome
      obtain ⟨e', he'⟩ := Option.ne_none_iff_exists'.1 hsome
      exact hi (r.entry_used i e' he')
    -- a new identifier can only have got its entry from a publication
    cases h with
    | claim h => cases he.symm.trans hnone
    | @publish j e' h hp =>
      have he : Function.update r.entries j (some e') i = some e := he
      by_cases hj : i = j
      · subst hj
        rw [Function.update_self] at he
        obtain rfl := Option.some.inj he
        exact ⟨e', hp, .inl rfl⟩
      · rw [Function.update_of_ne hj, hnone] at he
        cases he
    | withdraw => cases he.symm.trans (withdraw_none hnone)
    | pin => cases he.symm.trans (pin_none hnone)

theorem Later.sound (h : Later Pub n c empty r) : Sound Pub n c r := by
  induction h with
  | refl =>
    intro i e he
    cases he
  | tail _ hstep ih => exact hstep.sound ih

end Registry

end Accel.Data
