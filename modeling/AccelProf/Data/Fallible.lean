import Mathlib

/-! Loops over a list whose body may fail: the first failure ends them. -/

namespace Accel.Data
variable {α β ε : Type} {xs : List α}

theorem except_bind_ok {x : Except ε α} {f : α → Except ε β} {b : β} :
    x >>= f = .ok b ↔ ∃ a, x = .ok a ∧ f a = .ok b := by
  cases x with
  | error e => exact iff_of_false (fun h => by cases h) fun ⟨_, h, _⟩ => by cases h
  | ok a =>
    constructor
    · exact fun h => ⟨a, rfl, h⟩
    · rintro ⟨_, h, hf⟩
      exact Except.ok.inj h ▸ hf

theorem except_map_ok {x : Except ε α} {f : α → β} {b : β} :
    x.map f = .ok b ↔ ∃ a, x = .ok a ∧ f a = b := by
  cases x with
  | error e => exact iff_of_false (fun h => by cases h) fun ⟨_, h, _⟩ => by cases h
  | ok a =>
    constructor
    · exact fun h => ⟨a, rfl, Except.ok.inj h⟩
    · rintro ⟨_, h, hf⟩
      obtain rfl := Except.ok.inj h
      exact congrArg Except.ok hf

section Fold
variable {f : β → α → Except ε β} {x : α} {b b' : β}

theorem foldlM_cons_ok : (x :: xs).foldlM f b = .ok b' ↔
    ∃ b₁, f b x = .ok b₁ ∧ xs.foldlM f b₁ = .ok b' := by
  rw [List.foldlM_cons, except_bind_ok]

/-- What every round keeps holds at the end of a loop that did not fail. -/
theorem foldlM_ok_inv {P : β → Prop} (hf : ∀ b x b', P b → f b x = .ok b' → P b')
    (h : xs.foldlM f b = .ok b') (hb : P b) : P b' := by
  induction xs generalizing b with
  | nil => exact Except.ok.inj h ▸ hb
  | cons x xs ih =>
    obtain ⟨b₁, hx, hxs⟩ := foldlM_cons_ok.1 h
    exact ih hxs (hf _ _ _ hb hx)

end Fold

theorem forM_ok {f : α → Except ε Unit} : xs.forM f = .ok () ↔ ∀ x ∈ xs, f x = .ok () := by
  induction xs with
  | nil => exact iff_of_true rfl (by simp)
  | cons x xs ih =>
    show (f x >>= fun _ => xs.forM f) = .ok () ↔ _
    rw [except_bind_ok, List.forall_mem_cons, ← ih]
    exact ⟨fun ⟨_, hx, hxs⟩ => ⟨hx, hxs⟩, fun ⟨hx, hxs⟩ => ⟨(), hx, hxs⟩⟩

section Related
variable {R : α → β → Prop} {ys : List β}

theorem exists_right_of_forall₂ (h : List.Forall₂ R xs ys) : ∀ x ∈ xs, ∃ y ∈ ys, R x y := by
  induction h with
  | nil => simp
  | cons hxy _ ih =>
    refine List.forall_mem_cons.2 ⟨⟨_, List.mem_cons_self, hxy⟩, fun x hx => ?_⟩
    obtain ⟨y, hy, hr⟩ := ih x hx
    exact ⟨y, List.mem_cons_of_mem _ hy, hr⟩

theorem exists_left_of_forall₂ (h : List.Forall₂ R xs ys) {y : β} (hy : y ∈ ys) : ∃ x ∈ xs, R x y :=
  exists_right_of_forall₂ (R := fun y x => R x y) h.flip y hy

theorem forall₂_imp_mem {S : α → β → Prop} (h : List.Forall₂ R xs ys)
    (hS : ∀ x ∈ xs, ∀ y, R x y → S x y) :
    List.Forall₂ S xs ys := by
  induction h with
  | nil => exact .nil
  | cons hxy _ ih =>
    obtain ⟨hx, hxs⟩ := List.forall_mem_cons.1 hS
    exact .cons (hx _ hxy) (ih hxs)

end Related

section Map
variable {f : α → Except ε β}

theorem mapM_ok {ys : List β} : xs.mapM f = .ok ys ↔
    List.Forall₂ (fun x y => f x = .ok y) xs ys := by
  induction xs generalizing ys with
  | nil =>
    rw [List.mapM_nil, List.forall₂_nil_left_iff]
    exact ⟨fun h => (Except.ok.inj h).symm, fun h => by rw [h]; rfl⟩
  | cons x xs ih =>
    rw [List.mapM_cons, except_bind_ok, List.forall₂_cons_left_iff]
    constructor
    · rintro ⟨y, hy, hrest⟩
      obtain ⟨ys', hys', hok⟩ := except_bind_ok.1 hrest
      exact ⟨y, ys', hy, ih.1 hys', (Except.ok.inj hok).symm⟩
    · rintro ⟨y, ys', hy, hys', rfl⟩
      exact ⟨y, hy, except_bind_ok.2 ⟨ys', ih.2 hys', rfl⟩⟩

/-- A loop that collects results ends with the first failure. -/
theorem mapM_error {e : ε} : xs.mapM f = .error e ↔ ∃ before x after, xs = before ++ x :: after ∧
    (∀ b ∈ before, ∃ y, f b = .ok y) ∧ f x = .error e := by
  induction xs with
  | nil =>
    rw [List.mapM_nil]
    refine iff_of_false (fun h => by cases h) ?_
    rintro ⟨before, x, after, h, -⟩
    simp at h
  | cons x xs ih =>
    rw [List.mapM_cons]
    cases hx : f x with
    | error e' =>
      have hbind : (Except.error e' >>= fun y => xs.mapM f >>= fun ys => pure (y :: ys)) =
          .error e' := rfl
      rw [hbind]
      constructor
      · intro h
        obtain rfl := Except.error.inj h
        exact ⟨[], x, xs, rfl, by simp, hx⟩
      · rintro ⟨before, x', after, hsplit, hbefore, hx'⟩
        cases before with
        | nil =>
          obtain ⟨rfl, -⟩ := List.cons.inj hsplit
          exact congrArg Except.error (Except.error.inj (hx.symm.trans hx'))
        | cons b before =>
          obtain ⟨rfl, -⟩ := List.cons.inj hsplit
          obtain ⟨y, hy⟩ := hbefore x List.mem_cons_self
          cases hx.symm.trans hy
    | ok y =>
      -- a first result changes nothing about failing
      have hbind : (Except.ok y >>= fun y => xs.mapM f >>= fun ys => pure (y :: ys)) = .error e ↔
          xs.mapM f = .error e := by
        show (xs.mapM f >>= fun ys => pure (y :: ys)) = .error e ↔ _
        cases xs.mapM f with
        | error e' => exact Iff.rfl
        | ok ys => exact iff_of_false (fun h => by cases h) fun h => by cases h
      rw [hbind, ih]
      constructor
      · rintro ⟨before, x', after, rfl, hbefore, hx'⟩
        exact ⟨x :: before, x', after, rfl, List.forall_mem_cons.2 ⟨⟨y, hx⟩, hbefore⟩, hx'⟩
      · rintro ⟨before, x', after, hsplit, hbefore, hx'⟩
        cases before with
        | nil =>
          obtain ⟨rfl, -⟩ := List.cons.inj hsplit
          cases hx.symm.trans hx'
        | cons b before =>
          obtain ⟨rfl, rfl⟩ := List.cons.inj hsplit
          exact ⟨before, x', after, rfl, (List.forall_mem_cons.1 hbefore).2, hx'⟩

theorem mapM_of_forall (h : ∀ x ∈ xs, ∃ y, f x = .ok y) : ∃ ys, xs.mapM f = .ok ys := by
  induction xs with
  | nil => exact ⟨[], rfl⟩
  | cons x xs ih =>
    obtain ⟨⟨y, hy⟩, hxs⟩ := List.forall_mem_cons.1 h
    obtain ⟨ys, hys⟩ := ih hxs
    exact ⟨y :: ys, mapM_ok.2 (.cons hy (mapM_ok.1 hys))⟩

end Map
end Accel.Data
