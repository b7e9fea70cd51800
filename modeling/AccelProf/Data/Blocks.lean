import Mathlib

/-! An ordered list handed out in blocks: a request names how many items it wants at most and where
it stands, and the answer says where the next block starts. -/

namespace Accel.Data
variable {α β : Type}

/-- A block and the position at which the next one starts, absent at the end. -/
structure Block (α : Type) where
  items : List α
  next : Option ℕ

/-- An answer to a request for at most `most` items of `all` from `start` on: the next items, at
least one while some remain, and a position exactly when more remain after them. -/
structure IsBlock (all : List α) (most start : ℕ) (b : Block α) : Prop where
  items : b.items <+: all.drop start
  bound : b.items.length ≤ most
  progress : start < all.length → 0 < most → b.items ≠ []
  next : b.next = if start + b.items.length < all.length then some (start + b.items.length)
    else none

theorem IsBlock.take_append {all : List α} {most start : ℕ} {b : Block α}
    (h : IsBlock all most start b) :
    all.take start ++ b.items = all.take (start + b.items.length) := by
  rw [List.take_add, ← List.prefix_iff_eq_take.1 h.items]

/-- With a block, everything is collected, or the next block starts where the collection ends. -/
theorem IsBlock.collected {all : List α} {most start : ℕ} {b : Block α}
    (h : IsBlock all most start b)
    (hstart : start ≤ all.length) (hmost : 0 < most) :
    (b.next = none ∧ start + b.items.length = all.length ∧ all.take start ++ b.items = all) ∨
      ∃ n, b.next = some n ∧ n = start + b.items.length ∧ all.take start ++ b.items = all.take n ∧
        start < n ∧
        n < all.length := by
  have hle : start + b.items.length ≤ all.length := by
    have hlen := h.items.length_le
    rw [List.length_drop] at hlen
    omega
  by_cases hmore : start + b.items.length < all.length
  · have hnext := h.next
    rw [if_pos hmore] at hnext
    have hne : b.items.length ≠ 0 :=
      fun h0 => h.progress (by omega) hmost (List.length_eq_zero_iff.1 h0)
    exact .inr ⟨_, hnext, rfl, h.take_append, by omega, hmore⟩
  · have hnext := h.next
    rw [if_neg hmore] at hnext
    have hend : start + b.items.length = all.length := by omega
    refine .inl ⟨hnext, hend, ?_⟩
    rw [h.take_append, hend, List.take_length]

/-- Cutting before filtering gives what cutting after filtering gives exactly when nothing is
filtered out before the cut or nothing that passes stands behind it. -/
theorem filter_take_eq_iff (p : α → Bool) (n : ℕ) (l : List α) :
    (l.take n).filter p = (l.filter p).take n ↔
      (∀ x ∈ l.take n, p x = true) ∨ ∀ x ∈ l.drop n, ¬ p x = true := by
  have hsplit : l.filter p = (l.take n).filter p ++ (l.drop n).filter p := by
    rw [← List.filter_append, List.take_append_drop]
  have hle : ((l.take n).filter p).length ≤ n :=
    (List.length_filter_le ..).trans (List.length_take_le ..)
  have htake : (l.filter p).take n =
      (l.take n).filter p ++ ((l.drop n).filter p).take (n - ((l.take n).filter p).length) := by
    rw [hsplit, List.take_append, List.take_of_length_le hle]
  have hcut : (l.take n).filter p = (l.filter p).take n ↔
      n - ((l.take n).filter p).length = 0 ∨ ∀ x ∈ l.drop n, ¬ p x = true := by
    rw [htake, eq_comm, List.append_right_eq_self, List.take_eq_nil_iff, List.filter_eq_nil_iff]
  rw [hcut]
  constructor
  · rintro (h | h)
    · have hlen : ((l.take n).filter p).length = (l.take n).length :=
        le_antisymm (List.length_filter_le ..) ((List.length_take_le ..).trans (by omega))
      exact .inl (List.length_filter_eq_length_iff.1 hlen)
    · exact .inr h
  · rintro (h | h)
    · rcases le_or_gt n l.length with hn | hn
      · rw [List.filter_eq_self.2 h, List.length_take_of_le hn]
        exact .inl (Nat.sub_self n)
      · rw [List.drop_of_length_le hn.le]
        exact .inr (by simp)
    · exact .inr h

end Accel.Data
