import Mathlib

/-! Replacing the occurrences of some words in a text: in one pass, from the left, without
overlaps. -/

namespace Accel.Data
variable {α : Type} [DecidableEq α]

abbrev Rule (α : Type) := List α × List α

/-- The replacement from a place where the next `n` characters are consumed already. -/
def replaceFrom (rules : List (Rule α)) : ℕ → List α → List α
  | _, [] => []
  | n + 1, _ :: s => replaceFrom rules n s
  | 0, c :: s => match rules.find? fun r => r.1.isPrefixOf (c :: s) with
    | some r => r.2 ++ replaceFrom rules (r.1.length - 1) s
    | none => c :: replaceFrom rules 0 s

def replaceAll (rules : List (Rule α)) (s : List α) : List α := replaceFrom rules 0 s

/-- The rules that only take the words out. -/
def erased (rules : List (Rule α)) : List (Rule α) := rules.map fun r => (r.1, [])

variable {rules : List (Rule α)} {r : Rule α} {c : α} {s t : List α}

theorem replaceFrom_drop (rules : List (Rule α)) (n : ℕ) (s : List α) :
    replaceFrom rules n s = replaceAll rules (s.drop n) := by
  induction s generalizing n with
  | nil => simp [replaceAll, replaceFrom]
  | cons c s ih =>
    cases n with
    | zero => rfl
    | succ n =>
      rw [replaceFrom, ih, List.drop_succ_cons]

@[simp] theorem replaceAll_nil : replaceAll rules [] = [] := rfl

theorem replaceAll_cons_of_none (h : ∀ r ∈ rules, ¬ r.1 <+: c :: s) :
    replaceAll rules (c :: s) = c :: replaceAll rules s := by
  have hnone : (rules.find? fun r => r.1.isPrefixOf (c :: s)) = none := by
    rw [List.find?_eq_none]
    exact fun r hr hp => h r hr (List.isPrefixOf_iff_prefix.1 hp)
  unfold replaceAll
  rw [replaceFrom, hnone]

/-- A character that starts no word stays. -/
theorem replaceAll_cons_of_head (h : ∀ r ∈ rules, ∃ x xs, r.1 = x :: xs ∧ x ≠ c) :
    replaceAll rules (c :: s) = c :: replaceAll rules s := by
  refine replaceAll_cons_of_none fun r hr hp => ?_
  obtain ⟨x, xs, hx, hne⟩ := h r hr
  rw [hx, List.cons_prefix_cons] at hp
  exact hne hp.1

theorem replaceAll_append_of_head (h : ∀ r ∈ rules, ∃ x xs, r.1 = x :: xs ∧ x ∉ t) :
    replaceAll rules (t ++ s) = t ++ replaceAll rules s := by
  induction t with
  | nil => rfl
  | cons c t ih =>
    have hc : ∀ r ∈ rules, ∃ x xs, r.1 = x :: xs ∧ x ≠ c := fun r hr => by
      obtain ⟨x, xs, hx, hm⟩ := h r hr
      exact ⟨x, xs, hx, fun he => hm (he ▸ List.mem_cons_self)⟩
    have ht : ∀ r ∈ rules, ∃ x xs, r.1 = x :: xs ∧ x ∉ t := fun r hr => by
      obtain ⟨x, xs, hx, hm⟩ := h r hr
      exact ⟨x, xs, hx, fun he => hm (List.mem_cons_of_mem _ he)⟩
    rw [List.cons_append, replaceAll_cons_of_head hc, ih ht, List.cons_append]

theorem replaceAll_of_find (hne : r.1 ≠ [])
    (h : (rules.find? fun r' => r'.1.isPrefixOf (r.1 ++ s)) = some r) :
    replaceAll rules (r.1 ++ s) = r.2 ++ replaceAll rules s := by
  obtain ⟨x, xs, hx⟩ := List.exists_cons_of_ne_nil hne
  have hfront : r.1 ++ s = x :: (xs ++ s) := by rw [hx, List.cons_append]
  have hlen : r.1.length - 1 = xs.length := by simp [hx]
  have hrest := replaceFrom_drop rules (r.1.length - 1) (xs ++ s)
  rw [hlen, List.drop_left] at hrest
  rw [hfront] at h ⊢
  show replaceFrom rules 0 (x :: (xs ++ s)) = _
  rw [replaceFrom, h]
  show r.2 ++ replaceFrom rules (r.1.length - 1) (xs ++ s) = _
  rw [hlen, hrest]

theorem replaceAll_eq_self (h : ∀ r ∈ rules, ¬ r.1 <:+: s) : replaceAll rules s = s := by
  induction s with
  | nil => rfl
  | cons c s ih =>
    rw [replaceAll_cons_of_none fun r hr hp => h r hr hp.isInfix,
      ih fun r hr hi => h r hr (hi.trans (List.infix_cons List.infix_rfl))]

/-- Whatever stands for the words, the rest of the text is there. -/
theorem replaceFrom_erased_sublist (rules : List (Rule α)) (n : ℕ) (s : List α) :
    List.Sublist (replaceFrom (erased rules) n s) (replaceFrom rules n s) := by
  induction s generalizing n with
  | nil => simp [replaceFrom]
  | cons c s ih =>
    cases n with
    | succ n => exact ih n
    | zero =>
      have hfind : ((erased rules).find? fun r => r.1.isPrefixOf (c :: s)) =
          (rules.find? fun r => r.1.isPrefixOf (c :: s)).map fun r => (r.1, []) := by
        unfold erased
        rw [List.find?_map]
        rfl
      rw [replaceFrom, replaceFrom, hfind]
      cases rules.find? fun r => r.1.isPrefixOf (c :: s) with
      | none => exact (ih 0).cons_cons c
      | some r => exact (ih _).trans (List.sublist_append_right _ _)

theorem replaceAll_erased_sublist (rules : List (Rule α)) (s : List α) :
    List.Sublist (replaceAll (erased rules) s) (replaceAll rules s) :=
  replaceFrom_erased_sublist rules 0 s

end Accel.Data
