import AccelProf.Analysis.Advice
import AccelProf.Model.Tools

/-! What the advice of a finished tool tells: a failure cannot be taken for a success, and of a
success no line is lost but the noise. -/

namespace Accel.Model
open Data

variable {name stdout stderr advice : Str} {returncode : ℤ} {prefixes : List Json}

/-- The prefixes that are compared before the first one that is no string. -/
def leadingTexts : List Json → List Str
  | .str p :: prefixes => p :: leadingTexts prefixes
  | _ => []

def IsNoise (prefixes : List Json) (line : Str) : Prop :=
  ∃ p ∈ leadingTexts prefixes, p <+: line.dropWhile isPySpace

instance (prefixes : List Json) (line : Str) : Decidable (IsNoise prefixes line) :=
  inferInstanceAs (Decidable (∃ p ∈ _, _))

/-- The lines of the output that are passed on. -/
def keptLines (prefixes : List Json) (stdout : Str) : List Str :=
  (splitlines stdout).filter fun line => ¬ IsNoise prefixes line

/-- What is passed on of the output of a success. -/
def findings (prefixes : List Json) (stdout : Str) : Str :=
  if prefixes = [] then stdout else joinNewline (keptLines prefixes stdout)

/-- Some line is compared with a prefix that is no string. -/
def Stumbles (prefixes : List Json) (stdout : Str) : Prop :=
  (leadingTexts prefixes).length < prefixes.length ∧ keptLines prefixes stdout ≠ []

theorem startsWithAny_eq (line : Str) (prefixes : List Json) :
    startsWithAny (line.dropWhile isPySpace) prefixes =
      if IsNoise prefixes line then .ok true
      else if (leadingTexts prefixes).length < prefixes.length then .error .typeError
      else .ok false := by
  induction prefixes with
  | nil => simp [startsWithAny, IsNoise, leadingTexts]
  | cons p prefixes ih =>
    cases p with
    | str p =>
      unfold startsWithAny
      rw [ih]
      have hnoise : IsNoise (.str p :: prefixes) line ↔
          p <+: line.dropWhile isPySpace ∨ IsNoise prefixes line := by
        simp [IsNoise, leadingTexts]
      have hlen : (leadingTexts (.str p :: prefixes)).length < (Json.str p :: prefixes).length ↔
          (leadingTexts prefixes).length < prefixes.length := by
        simp only [leadingTexts, List.length_cons, Nat.add_lt_add_iff_right]
      simp only [hnoise, hlen]
      by_cases hp : p <+: line.dropWhile isPySpace
      · simp [hp]
      · simp [hp]
    | _ => simp [startsWithAny, IsNoise, leadingTexts]

/-- The loop over the lines, from the lines kept so far. -/
theorem foldlM_keepLine (lines keep : List Str) (prefixes : List Json) :
    lines.foldlM (keepLine prefixes) keep =
      if (leadingTexts prefixes).length < prefixes.length ∧
        lines.filter (fun line => ¬ IsNoise prefixes line) ≠ [] then .error .typeError
      else .ok (keep ++ lines.filter fun line => ¬ IsNoise prefixes line) := by
  induction lines generalizing keep with
  | nil => simp [List.foldlM_nil, pure, Except.pure]
  | cons line lines ih =>
    rw [List.foldlM_cons, keepLine, startsWithAny_eq]
    by_cases hnoise : IsNoise prefixes line
    · rw [if_pos hnoise]
      have hfilter : (line :: lines).filter (fun line => ¬ IsNoise prefixes line) =
          lines.filter fun line => ¬ IsNoise prefixes line := by simp [hnoise]
      rw [hfilter]
      exact ih keep
    · rw [if_neg hnoise]
      have hfilter : (line :: lines).filter (fun line => ¬ IsNoise prefixes line) =
          line :: lines.filter fun line => ¬ IsNoise prefixes line := by simp [hnoise]
      rw [hfilter]
      by_cases hlen : (leadingTexts prefixes).length < prefixes.length
      · rw [if_pos hlen, if_pos ⟨hlen, List.cons_ne_nil _ _⟩]
        rfl
      · rw [if_neg hlen, if_neg fun h => hlen h.1]
        show lines.foldlM (keepLine prefixes) (keep ++ [line]) = _
        rw [ih, if_neg fun h => hlen h.1, List.append_assoc]
        rfl

theorem withoutNoise_stumbles (h : Stumbles prefixes stdout) :
    withoutNoise stdout prefixes = .error .typeError := by
  have hne : prefixes ≠ [] := by
    rintro rfl
    exact absurd h.1 (Nat.lt_irrefl 0)
  have hkeep : keepLines prefixes (splitlines stdout) = .error .typeError :=
    (foldlM_keepLine _ [] prefixes).trans (if_pos h)
  unfold withoutNoise
  rw [if_neg hne, hkeep]
  rfl

theorem withoutNoise_eq (h : ¬ Stumbles prefixes stdout) :
    withoutNoise stdout prefixes = .ok (findings prefixes stdout) := by
  have hkeep : keepLines prefixes (splitlines stdout) = .ok (keptLines prefixes stdout) :=
    (foldlM_keepLine _ [] prefixes).trans (if_neg h)
  unfold withoutNoise findings
  split_ifs with hne
  · rfl
  · rw [hkeep]
    rfl

theorem newline_separates : Separates isLineBreak (fun c d => c = '\r' ∧ d = '\n') '\n' where
  ends := by decide
  alone c := by simp
  pairs c d h := by
    have h : c = '\r' ∧ d = '\n' := by simpa using h
    rw [h.1]
    decide

theorem isPySpace_of_isLineBreak (c : Char) (h : isLineBreak c = true) : isPySpace c = true := by
  unfold isLineBreak at h
  unfold isPySpace
  simp only [decide_eq_true_eq] at h ⊢
  omega

theorem isBlank_iff (s : Str) : isBlank s = true ↔ ∀ c ∈ s, isPySpace c = true := List.all_eq_true

theorem isBlank_splitlines (s : Str) :
    (∀ line ∈ splitlines s, isBlank line = true) ↔ isBlank s = true := by
  simp only [isBlank_iff]
  have hpair : ∀ c d : Char, decide (c = '\r' ∧ d = '\n') = true →
      isPySpace c = true ∧ isPySpace d = true := by
    intro c d h
    obtain ⟨rfl, rfl⟩ := of_decide_eq_true h
    decide
  exact (forall_linesFrom isPySpace_of_isLineBreak hpair).trans (and_iff_right nofun)

/-- With no prefix every line is kept. -/
theorem keptLines_nil (stdout : Str) : keptLines [] stdout = splitlines stdout := by
  simp [keptLines, IsNoise, leadingTexts]

theorem isBlank_findings : isBlank (findings prefixes stdout) = true ↔
    ∀ line ∈ keptLines prefixes stdout, isBlank line = true := by
  unfold findings
  split_ifs with hnil
  · rw [hnil, keptLines_nil]
    exact (isBlank_splitlines stdout).symm
  · simp only [isBlank_iff]
    exact forall_joinLines (by decide)

/-- The lines of what is passed on are the kept ones; joining loses an empty one at the end. -/
theorem splitlines_findings : splitlines (findings prefixes stdout) =
    if prefixes = [] then keptLines prefixes stdout
    else dropEmptyEnd (keptLines prefixes stdout) := by
  unfold findings
  split_ifs with hnil
  · rw [hnil, keptLines_nil]
  · apply newline_separates.splitLines_joinLines
    exact fun line hline => splitLines_free line (List.mem_filter.1 hline).1

theorem header_bounded {header text : Str} (h : header <+: text)
    (hlen : header.length < adviceBudget) : header <+: bounded text := by
  by_cases hshort : text.length ≤ maxAdviceChars
  · rw [bounded_short hshort]
    exact h
  · rw [bounded_long (not_le.1 hshort)]
    have htake : header <+: text.take adviceBudget :=
      List.prefix_take_iff.2 ⟨h, hlen.le⟩
    exact htake.trans (List.prefix_append _ _)

theorem not_isBlank {c : Char} {s : Str} (hc : c ∈ s) (h : isPySpace c = false) :
    isBlank s = false := by
  by_contra hblank
  rw [Bool.not_eq_false, isBlank_iff] at hblank
  rw [hblank c hc] at h
  cases h

/-- Cutting a text off leaves no blank one behind. -/
theorem bounded_not_isBlank {text : Str} (h : isBlank text = false) :
    isBlank (bounded text) = false := by
  by_cases hshort : text.length ≤ maxAdviceChars
  · rw [bounded_short hshort]
    exact h
  · rw [bounded_long (not_le.1 hshort)]
    have hmark : '…' ∈ truncationMarker (text.length - adviceBudget) := by
      unfold truncationMarker
      exact List.mem_append_left _ (List.mem_append_left _ (by decide +kernel))
    exact not_isBlank (List.mem_append_right _ hmark) (by decide)

/-- What becomes of a text on its way to the reader: it arrives whole, or cut off with a marker that
counts what is missing. -/
structure Carries (text advice : Str) : Prop where
  whole : text.length ≤ maxAdviceChars → advice = text
  clipped : maxAdviceChars < text.length → ∃ kept, kept <+: text ∧ kept.length = 199971 ∧
    advice = kept ++ truncationMarker (text.length - kept.length)
  fits : text.length < 10 ^ 9 + 199971 → advice.length ≤ maxAdviceChars

theorem carries_bounded (text : Str) : Carries text (bounded text) where
  whole := bounded_short
  clipped hlong := by
    have hlen : (text.take adviceBudget).length = 199971 := by
      rw [List.length_take, adviceBudget_eq]
      unfold maxAdviceChars at hlong
      omega
    refine ⟨text.take adviceBudget, List.take_prefix _ _, hlen, ?_⟩
    rw [bounded_long hlong, hlen, adviceBudget_eq]
  fits hlt := by
    by_cases hshort : text.length ≤ maxAdviceChars
    · rw [bounded_short hshort]
      exact hshort
    · exact (bounded_fits_iff (not_le.1 hshort)).2 hlt

/-- What the advice of a finished tool says. -/
structure Tells (name : Str) (returncode : ℤ) (stdout stderr : Str) (prefixes : List Json)
    (advice : Str) : Prop where
  failed : returncode ≠ 0 →
    Carries (exitMarker name returncode ++ stderr ++ "\n---\n".toList ++ stdout) advice ∧
      ((exitMarker name returncode).length < 199971 → exitMarker name returncode <+: advice)
  silent : returncode = 0 → (∀ line ∈ keptLines prefixes stdout, isBlank line = true) →
    advice = noFindings name
  complete : returncode = 0 → (∃ line ∈ keptLines prefixes stdout, isBlank line = false) →
    ∃ text, Carries text advice ∧ (prefixes = [] → text = stdout) ∧
      splitlines text = if prefixes = [] then keptLines prefixes stdout
        else dropEmptyEnd (keptLines prefixes stdout)
  speaks : isBlank advice = false

theorem exitMarker_head (name : Str) (returncode : ℤ) : '[' ∈ exitMarker name returncode := by
  unfold exitMarker
  exact List.mem_append_left _ (List.mem_append_left _ (List.mem_append_left _
    (List.mem_append_left _ (by decide))))

theorem tells_failure (hcode : returncode ≠ 0) : Tells name returncode stdout stderr prefixes
    (bounded (exitMarker name returncode ++ stderr ++ "\n---\n".toList ++ stdout)) where
  failed _ := by
    refine ⟨carries_bounded _, fun hlen => header_bounded ?_ (by rwa [adviceBudget_eq])⟩
    rw [List.append_assoc, List.append_assoc]
    exact List.prefix_append _ _
  silent h := absurd h hcode
  complete h := absurd h hcode
  speaks := by
    apply bounded_not_isBlank
    apply not_isBlank _ (by decide : isPySpace '[' = false)
    exact List.mem_append_left _ (List.mem_append_left _ (List.mem_append_left _
      (exitMarker_head name returncode)))

theorem noFindings_speaks (name : Str) : isBlank (noFindings name) = false := by
  apply not_isBlank _ (by decide : isPySpace '[' = false)
  unfold noFindings
  exact List.mem_append_left _ (List.mem_append_left _ (by decide))

theorem tells_success (hcode : returncode = 0) : Tells name returncode stdout stderr prefixes
    (if isBlank (findings prefixes stdout) then noFindings name
      else bounded (findings prefixes stdout)) where
  failed h := absurd hcode h
  silent _ hblank := if_pos (isBlank_findings.2 hblank)
  complete := by
    rintro - ⟨line, hline, hblank⟩
    -- a line that is not blank keeps the findings from being blank
    have hspeaks : ¬ isBlank (findings prefixes stdout) = true := by
      intro h
      rw [isBlank_findings.1 h line hline] at hblank
      cases hblank
    rw [if_neg hspeaks]
    exact ⟨findings prefixes stdout, carries_bounded _, fun hnil => if_pos hnil,
      splitlines_findings⟩
  speaks := by
    split_ifs with hblank
    · exact noFindings_speaks name
    · exact bounded_not_isBlank (by simpa using hblank)

/-- A finished tool always gives advice that says how it ended, unless after a success a line is
compared with a configured prefix that is no string. -/
theorem finalize_tells (name : Str) (returncode : ℤ) (stdout stderr : Str) (prefixes : List Json) :
    (returncode = 0 ∧ Stumbles prefixes stdout ∧
      finalize name returncode stdout stderr prefixes = .error .typeError) ∨
    ¬ (returncode = 0 ∧ Stumbles prefixes stdout) ∧
      ∃ advice, finalize name returncode stdout stderr prefixes = .ok advice ∧
        Tells name returncode stdout stderr prefixes advice := by
  unfold finalize
  by_cases hcode : returncode = 0
  · rw [if_neg (not_not.2 hcode)]
    by_cases hstumbles : Stumbles prefixes stdout
    · rw [withoutNoise_stumbles hstumbles]
      exact .inl ⟨hcode, hstumbles, rfl⟩
    · rw [withoutNoise_eq hstumbles]
      exact .inr ⟨fun h => hstumbles h.2, _, rfl, tells_success hcode⟩
  · rw [if_pos hcode]
    exact .inr ⟨fun h => hcode h.1, _, rfl, tells_failure hcode⟩

end Accel.Model
