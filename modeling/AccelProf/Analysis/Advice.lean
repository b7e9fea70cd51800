import AccelProf.Model.Analyzers

/-! The bound on an analyzer's advice: the slack covers a count of nine digits, and the bound holds
as long as no more are needed. -/

namespace Accel.Model

variable {text header : Str}

theorem length_truncationMarker (n : ℕ) :
    (truncationMarker n).length = 20 + (Nat.toDigits 10 n).length := by
  have hdigits : (toString n).toList = Nat.toDigits 10 n := by
    rw [Nat.toString_eq_repr, Nat.toList_repr]
  have hopen : "\n…[truncated ".toList.length = 13 := by decide +kernel
  have hclose : " chars]".toList.length = 7 := rfl
  unfold truncationMarker
  rw [List.length_append, List.length_append, hdigits, hopen, hclose]
  ring

theorem adviceBudget_eq : adviceBudget = 199971 := by
  have hzero : (Nat.toDigits 10 0).length = 1 := rfl
  rw [adviceBudget, length_truncationMarker, hzero, maxAdviceChars]

theorem bounded_short (h : text.length ≤ maxAdviceChars) : bounded text = text := if_pos h

theorem bounded_long (h : maxAdviceChars < text.length) :
    bounded text = text.take adviceBudget ++ truncationMarker (text.length - adviceBudget) :=
  if_neg (not_le.2 h)

theorem length_bounded (h : maxAdviceChars < text.length) :
    (bounded text).length = 199991 + (Nat.toDigits 10 (text.length - 199971)).length := by
  have hkept : (text.take adviceBudget).length = 199971 := by
    rw [List.length_take, adviceBudget_eq]
    unfold maxAdviceChars at h
    omega
  rw [bounded_long h, List.length_append, hkept, length_truncationMarker, adviceBudget_eq]
  omega

theorem bounded_fits_iff (h : maxAdviceChars < text.length) :
    (bounded text).length ≤ maxAdviceChars ↔ text.length < 10 ^ 9 + 199971 := by
  have hnine : (Nat.toDigits 10 (text.length - 199971)).length ≤ 9 ↔
      text.length - 199971 < 10 ^ 9 :=
    Nat.length_toDigits_le_iff (by decide) (by decide)
  rw [length_bounded h]
  unfold maxAdviceChars at h ⊢
  omega

/-- What the bound is to do to a text. -/
structure WellBounded (text : Str) : Prop where
  fits : (bounded text).length ≤ maxAdviceChars
  same_iff : bounded text = text ↔ text.length ≤ maxAdviceChars
  marked : maxAdviceChars < text.length → ∃ kept, kept <+: text ∧ kept ≠ text ∧
    bounded text = kept ++ truncationMarker (text.length - kept.length) ∧
    ∀ header, header <+: text → header.length < kept.length → header <+: bounded text
  idempotent : bounded (bounded text) = bounded text

/-- Of a text that is too long the budget is kept, whatever its length. -/
theorem bounded_marked (h : maxAdviceChars < text.length) : ∃ kept, kept <+: text ∧ kept ≠ text ∧
    bounded text = kept ++ truncationMarker (text.length - kept.length) ∧
    ∀ header, header <+: text → header.length < kept.length → header <+: bounded text := by
  have hlen : (text.take adviceBudget).length = adviceBudget := by
    rw [List.length_take, adviceBudget_eq]
    unfold maxAdviceChars at h
    omega
  refine ⟨text.take adviceBudget, List.take_prefix _ _, ?_, ?_, ?_⟩
  · intro hsame
    have hall : text.length = adviceBudget := (congrArg List.length hsame).symm.trans hlen
    rw [adviceBudget_eq] at hall
    unfold maxAdviceChars at h
    omega
  · rw [hlen, bounded_long h]
  · intro header hheader hshort
    have hkept : header <+: text.take adviceBudget :=
      List.prefix_of_prefix_length_le hheader (List.take_prefix _ _) hshort.le
    rw [bounded_long h]
    exact hkept.trans (List.prefix_append _ _)

/-- All that is asked of the bound holds of a text exactly when it has fewer than 10⁹ + 199971
characters. -/
theorem wellBounded_iff (text : Str) : WellBounded text ↔ text.length < 10 ^ 9 + 199971 := by
  by_cases hfit : text.length ≤ maxAdviceChars
  · have hsame : bounded text = text := bounded_short hfit
    have hlong : ¬maxAdviceChars < text.length := not_lt.2 hfit
    refine iff_of_true
      ⟨by rwa [hsame], iff_of_true hsame hfit, fun h => absurd h hlong, by rw [hsame, hsame]⟩ ?_
    unfold maxAdviceChars at hfit
    omega
  have hlong : maxAdviceChars < text.length := not_le.1 hfit
  constructor
  · exact fun h => (bounded_fits_iff hlong).1 h.fits
  · intro hlt
    have hfits : (bounded text).length ≤ maxAdviceChars := (bounded_fits_iff hlong).2 hlt
    refine ⟨hfits, iff_of_false (fun hsame => ?_) hfit, bounded_marked, bounded_short hfits⟩
    rw [hsame] at hfits
    exact hfit hfits

/-- A billion characters are left out, and the marker is one digit longer than the slack. -/
theorem bounded_exceeds : (bounded (List.replicate (10 ^ 9 + 199971) 'a')).length = 200001 ∧
    ¬WellBounded (List.replicate (10 ^ 9 + 199971) 'a') := by
  have hlen : (List.replicate (10 ^ 9 + 199971) 'a').length = 10 ^ 9 + 199971 :=
    List.length_replicate
  have hlong : maxAdviceChars < (List.replicate (10 ^ 9 + 199971) 'a').length := by
    rw [hlen]
    decide
  have hten : (Nat.toDigits 10 (10 ^ 9)).length = 10 := by decide +kernel
  have hcount : (bounded (List.replicate (10 ^ 9 + 199971) 'a')).length = 200001 := by
    rw [length_bounded hlong, hlen, Nat.add_sub_cancel, hten]
  refine ⟨hcount, fun h => ?_⟩
  have hfits := h.fits
  rw [hcount] at hfits
  exact absurd hfits (by decide)

end Accel.Model
