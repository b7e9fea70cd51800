import Mathlib

/-! Texts as lines. A line ends at a break, at a pair of symbols that together are one break, or at
the end of the text. -/

namespace Accel.Data

variable {α : Type} (isBreak : α → Bool) (isPair : α → α → Bool)

/-- The lines of `text` after a line that began with `acc`, which is read backwards. -/
def linesFrom (acc : List α) : List α → List (List α)
  | [] => if acc.isEmpty then [] else [acc.reverse]
  | [c] => if isBreak c then [acc.reverse] else [(c :: acc).reverse]
  | c :: d :: text =>
    if isPair c d then acc.reverse :: linesFrom [] text
    else if isBreak c then acc.reverse :: linesFrom [] (d :: text)
    else linesFrom (c :: acc) (d :: text)

/-- The lines of a text, without their breaks; nothing after a last break is no line. -/
def splitLines (text : List α) : List (List α) := linesFrom isBreak isPair [] text

/-- The lines, each but the last followed by `sep`. -/
def joinLines (sep : α) (lines : List (List α)) : List α := (lines.intersperse [sep]).flatten

/-- The lines without an empty one at their end. -/
def dropEmptyEnd : List (List α) → List (List α)
  | [] => []
  | [line] => if line.isEmpty then [] else [line]
  | line :: next :: lines => line :: dropEmptyEnd (next :: lines)

variable {isBreak isPair} {sep : α} {acc line text : List α} {lines : List (List α)}

/-- No symbol of a line ends it. -/
theorem linesFrom_free (hacc : ∀ c ∈ acc, isBreak c = false) :
    ∀ line ∈ linesFrom isBreak isPair acc text, ∀ c ∈ line, isBreak c = false := by
  induction acc, text using linesFrom.induct isBreak isPair with
  | case1 acc h =>
    unfold linesFrom
    simp [h]
  | case2 acc h =>
    unfold linesFrom
    simpa [h] using hacc
  | case3 acc c h =>
    unfold linesFrom
    simpa [h] using hacc
  | case4 acc c h =>
    unfold linesFrom
    have h : isBreak c = false := by simpa using h
    have hline : ∀ d ∈ (c :: acc).reverse, isBreak d = false := by
      simpa [or_imp, forall_and, h] using hacc
    simpa [h] using hline
  | case5 acc c d text h ih =>
    unfold linesFrom
    rw [if_pos h]
    refine List.forall_mem_cons.2 ⟨?_, ih nofun⟩
    simpa using hacc
  | case6 acc c d text h hbreak ih =>
    unfold linesFrom
    rw [if_neg h, if_pos hbreak]
    refine List.forall_mem_cons.2 ⟨?_, ih nofun⟩
    simpa using hacc
  | case7 acc c d text h hbreak ih =>
    unfold linesFrom
    rw [if_neg h, if_neg hbreak]
    apply ih
    exact List.forall_mem_cons.2 ⟨by simpa using hbreak, hacc⟩

theorem splitLines_free : ∀ line ∈ splitLines isBreak isPair text, ∀ c ∈ line, isBreak c = false :=
  linesFrom_free nofun

/-- A property of breaks holds of a text when it holds of its lines. -/
theorem forall_linesFrom {P : α → Prop} (hbreak : ∀ c, isBreak c = true → P c)
    (hpair : ∀ c d, isPair c d = true → P c ∧ P d) :
    (∀ line ∈ linesFrom isBreak isPair acc text, ∀ c ∈ line, P c) ↔
      (∀ c ∈ acc, P c) ∧ ∀ c ∈ text, P c := by
  induction acc, text using linesFrom.induct isBreak isPair with
  | case1 acc h =>
    have hnil : acc = [] := by simpa using h
    simp [linesFrom, hnil]
  | case2 acc h => simp [linesFrom, h]
  | case3 acc c h => simp [linesFrom, h, hbreak c h]
  | case4 acc c h =>
    have h : isBreak c = false := by simpa using h
    simp [linesFrom, h, or_imp, forall_and]
  | case5 acc c d text h ih =>
    have hcd := hpair c d h
    unfold linesFrom
    simp [h, ih, hcd]
  | case6 acc c d text h hc ih =>
    unfold linesFrom
    simp [h, hc, ih, hbreak c hc]
  | case7 acc c d text h hc ih =>
    unfold linesFrom
    simp [h, hc, ih, or_imp, forall_and]
    tauto

theorem joinLines_cons_cons (sep : α) (line next : List α) (lines : List (List α)) :
    joinLines sep (line :: next :: lines) = line ++ sep :: joinLines sep (next :: lines) := by
  simp [joinLines]

theorem forall_joinLines {P : α → Prop} {sep : α} (hsep : P sep) {lines : List (List α)} :
    (∀ c ∈ joinLines sep lines, P c) ↔ ∀ line ∈ lines, ∀ c ∈ line, P c := by
  induction lines with
  | nil => simp [joinLines]
  | cons line lines ih =>
    cases lines with
    | nil => simp [joinLines]
    | cons next lines =>
      rw [joinLines_cons_cons, List.forall_mem_append, List.forall_mem_cons, ih,
        List.forall_mem_cons (a := line)]
      exact and_congr_right fun _ => and_iff_right hsep

/-- What a text needs for its lines to be found again: the separator ends a line by itself, and only
a break begins a pair. -/
structure Separates (isBreak : α → Bool) (isPair : α → α → Bool) (sep : α) : Prop where
  ends : isBreak sep = true
  alone : ∀ c, isPair sep c = false
  pairs : ∀ c d, isPair c d = true → isBreak c = true

/-- A line that a separator ends. -/
theorem Separates.linesFrom_ended (h : Separates isBreak isPair sep)
    (hline : ∀ c ∈ line, isBreak c = false) : linesFrom isBreak isPair acc (line ++ sep :: text) =
      (acc.reverse ++ line) :: linesFrom isBreak isPair [] text := by
  induction line generalizing acc with
  | nil =>
    cases text with
    | nil => simp [linesFrom, h.ends]
    | cons d text => simp [linesFrom, h.ends, h.alone]
  | cons c line ih =>
    obtain ⟨hc, hline⟩ := List.forall_mem_cons.1 hline
    obtain ⟨d, rest, hrest⟩ : ∃ d rest, line ++ sep :: text = d :: rest := by
      cases line with
      | nil => exact ⟨_, _, rfl⟩
      | cons d line => exact ⟨_, _, rfl⟩
    have hpair : isPair c d = false := by
      by_contra hpair
      rw [Bool.not_eq_false] at hpair
      rw [h.pairs c d hpair] at hc
      cases hc
    have hstep : linesFrom isBreak isPair acc (c :: (line ++ sep :: text)) =
        linesFrom isBreak isPair (c :: acc) (line ++ sep :: text) := by
      rw [hrest]
      simp [linesFrom, hpair, hc]
    rw [List.cons_append, hstep, ih hline, List.reverse_cons, List.append_assoc]
    rfl

/-- A last line without a break at its end. -/
theorem Separates.linesFrom_last (h : Separates isBreak isPair sep)
    (hline : ∀ c ∈ line, isBreak c = false) : linesFrom isBreak isPair acc line =
      if acc.isEmpty && line.isEmpty then [] else [acc.reverse ++ line] := by
  induction line generalizing acc with
  | nil =>
    cases acc with
    | nil => rfl
    | cons a acc => simp [linesFrom]
  | cons c line ih =>
    obtain ⟨hc, hline⟩ := List.forall_mem_cons.1 hline
    cases line with
    | nil => simp [linesFrom, hc]
    | cons d line =>
      have hpair : isPair c d = false := by
        by_contra hpair
        rw [Bool.not_eq_false] at hpair
        rw [h.pairs c d hpair] at hc
        cases hc
      have hstep : linesFrom isBreak isPair acc (c :: d :: line) =
          linesFrom isBreak isPair (c :: acc) (d :: line) := by
        simp [linesFrom, hpair, hc]
      rw [hstep, ih hline]
      simp

/-- Joined lines are found again. -/
theorem Separates.splitLines_joinLines (h : Separates isBreak isPair sep)
    (hlines : ∀ line ∈ lines, ∀ c ∈ line, isBreak c = false) :
    splitLines isBreak isPair (joinLines sep lines) = dropEmptyEnd lines := by
  induction lines with
  | nil => rfl
  | cons line lines ih =>
    obtain ⟨hline, hlines⟩ := List.forall_mem_cons.1 hlines
    cases lines with
    | nil =>
      have hjoin : joinLines sep [line] = line := by simp [joinLines]
      rw [hjoin, splitLines, h.linesFrom_last hline]
      rfl
    | cons next lines =>
      have hstep : splitLines isBreak isPair (joinLines sep (line :: next :: lines)) =
          line :: splitLines isBreak isPair (joinLines sep (next :: lines)) := by
        rw [joinLines_cons_cons, splitLines, h.linesFrom_ended hline]
        rfl
      rw [hstep, ih hlines]
      rfl

end Accel.Data
