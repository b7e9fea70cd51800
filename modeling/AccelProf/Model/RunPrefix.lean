import AccelProf.Model.Janitor

/-! The strings a sweep passes around for one run prefix: its run id, its marker key and the key
its URI parses back to. -/

namespace Accel.Model
open Data

theorem rstrip_eq_self {c : Char} {s : Str} (h : c ∉ s) : rstrip c s = s :=
  List.rdropWhile_eq_self_iff.2 fun hl hc => h (by
    have := List.getLast_mem hl
    rwa [beq_iff_eq.1 hc] at this)

theorem rstrip_concat (c : Char) (s : Str) : rstrip c (s ++ [c]) = rstrip c s :=
  List.rdropWhile_concat_pos _ _ _ (by simp)

theorem rstrip_append {c : Char} {t : Str} (ht : t ≠ []) (h : c ∉ t) (s : Str) :
    rstrip c (s ++ t) = s ++ t := by
  refine List.rdropWhile_eq_self_iff.2 fun hl hc => h ?_
  rw [List.getLast_append_of_ne_nil _ ht, beq_iff_eq] at hc
  exact hc ▸ List.getLast_mem ht

theorem lastField_eq_self {s : Str} (h : '/' ∉ s) : lastField s = s := by
  rw [lastField, List.splitOn_eq_singleton h]
  rfl

theorem lastField_append {a b : Str} (ha : '/' ∉ a) (hb : '/' ∉ b) :
    lastField (a ++ '/' :: b) = b := by
  rw [lastField, List.splitOn_append_cons_self_of_not_mem ha, List.splitOn_eq_singleton hb]
  rfl

section TwoField
variable {a b : Str}

theorem rstrip_runPrefix (hb : '/' ∉ b) (hne : b ≠ []) :
    rstrip '/' (runPrefix a b) = a ++ '/' :: b := by
  have h : runPrefix a b = (a ++ ['/'] ++ b) ++ ['/'] := by simp [runPrefix]
  rw [h, rstrip_concat, rstrip_append hne hb]
  simp

theorem rstrip_runPrefix_nil (ha : '/' ∉ a) : rstrip '/' (runPrefix a []) = a := by
  have h : runPrefix a [] = (a ++ ['/']) ++ ['/'] := by simp [runPrefix]
  rw [h, rstrip_concat, rstrip_concat, rstrip_eq_self ha]

theorem runIdOf_runPrefix (ha : '/' ∉ a) (hb : '/' ∉ b) :
    runIdOf (runPrefix a b) = if b = [] then a else b := by
  rw [runIdOf]
  split_ifs with h
  · rw [h, rstrip_runPrefix_nil ha, lastField_eq_self ha]
  · rw [rstrip_runPrefix hb h, lastField_append ha hb]

theorem scanMarkerKey_runPrefix (hb : '/' ∉ b) (hne : b ≠ []) :
    scanMarkerKey (runPrefix a b) = runPrefix a b ++ retentionMarker := by
  rw [scanMarkerKey, rstrip_runPrefix hb hne]
  simp [runPrefix]

theorem isTwoField_iff {p : Key} :
    IsTwoField '/' p ↔ ∃ a b, '/' ∉ a ∧ '/' ∉ b ∧ p = runPrefix a b := Iff.rfl

theorem runPrefix_isTwoField (ha : '/' ∉ a) (hb : '/' ∉ b) : IsTwoField '/' (runPrefix a b) :=
  ⟨a, b, ha, hb, rfl⟩

/-- A key lies under at most one run prefix. -/
theorem runPrefix_append_inj {a' b' s t : Str} (ha : '/' ∉ a) (hb : '/' ∉ b) (ha' : '/' ∉ a')
    (hb' : '/' ∉ b') (h : runPrefix a b ++ s = runPrefix a' b' ++ t) : a = a' ∧ b = b' ∧ s = t := by
  obtain ⟨rfl, h₁⟩ := field_unique (s := b ++ '/' :: s) (t := b' ++ '/' :: t) ha ha'
    (by simpa [runPrefix] using h)
  obtain ⟨rfl, rfl⟩ := field_unique hb hb' h₁
  exact ⟨rfl, rfl, rfl⟩

end TwoField

theorem isHex_plain {c : Char} (h : isHex c = true) :
    c ≠ '/' ∧ isRemoved c = false ∧ c ≠ '?' ∧ c ≠ '#' ∧ c ≠ '\n' := by
  refine ⟨?_, ?_, ?_, ?_, ?_⟩
  · rintro rfl
    exact absurd h (by decide)
  · by_contra hc
    simp only [isRemoved, Bool.not_eq_false, Bool.or_eq_true, beq_iff_eq] at hc
    rcases hc with (rfl | rfl) | rfl <;> exact absurd h (by decide)
  all_goals
    rintro rfl
    exact absurd h (by decide)

theorem isRunId_iff {s : Str} : isRunId s = true ↔ s.length = 32 ∧ ∀ c ∈ s, isHex c = true := by
  simp [isRunId]

theorem isRunId_ne_nil {s : Str} (h : isRunId s = true) : s ≠ [] := by
  rintro rfl
  exact absurd h (by decide)

theorem not_mem_of_isRunId {s : Str} (h : isRunId s = true) : '/' ∉ s :=
  fun hc => (isHex_plain ((isRunId_iff.1 h).2 _ hc)).1 rfl

/-- What passes the id check is a run id, perhaps with a line break after it. -/
theorem matchesRunId_iff {s : Str} : matchesRunId s = true ↔
    isRunId s = true ∨ ∃ t, s = t ++ ['\n'] ∧ isRunId t = true := matchAnchored_iff

theorem exists_hex_of_matchesRunId {s : Str} (h : matchesRunId s = true) :
    ∃ c ∈ s, isHex c = true := by
  rcases matchesRunId_iff.1 h with ht | ⟨t, rfl, ht⟩
  · obtain ⟨c, hc⟩ := List.exists_mem_of_ne_nil _ (isRunId_ne_nil ht)
    exact ⟨c, hc, (isRunId_iff.1 ht).2 c hc⟩
  · obtain ⟨c, hc⟩ := List.exists_mem_of_ne_nil _ (isRunId_ne_nil ht)
    exact ⟨c, List.mem_append_left _ hc, (isRunId_iff.1 ht).2 c hc⟩

theorem lstrip_ne_nil {s : Str} {c d : Char} (hd : d ∈ s) (hne : d ≠ c) : lstrip c s ≠ [] := by
  intro h
  have := List.dropWhile_eq_nil_iff.1 h d hd
  exact hne (by simpa using this)

/-- The URI of a prefix that passed the id check never parses to the whole bucket. -/
theorem uriKey_ne_nil {p : Key} (hp : IsTwoField '/' p) (h : matchesRunId (runIdOf p) = true) :
    uriKey p ≠ [] := by
  obtain ⟨a, b, ha, hb, rfl⟩ := isTwoField_iff.1 hp
  obtain ⟨c, hc, hx⟩ := exists_hex_of_matchesRunId h
  obtain ⟨h₁, h₂, -⟩ := isHex_plain hx
  rw [runIdOf_runPrefix ha hb] at hc
  have hmem : c ∈ runPrefix a b := by
    split_ifs at hc <;> simp [runPrefix, hc]
  exact lstrip_ne_nil (mem_clean.2 ⟨hmem, h₂⟩) h₁

theorem parseS3Uri_runPrefix (bucket : BucketName) {p : Key} (hp : IsTwoField '/' p) :
    parseS3Uri (s3Uri bucket.name p) =
      if isRefused p then .error (.queryOrFragment (s3Uri bucket.name p))
      else .ok ⟨bucket.name, uriKey p⟩ := by
  obtain ⟨a, b, -, -, rfl⟩ := isTwoField_iff.1 hp
  have h : runPrefix a b = (a ++ '/' :: b) ++ ['/'] := by simp [runPrefix]
  rw [h, parseS3Uri_prefix]

theorem uriKey_eq_self {p : Key} (hc : ∀ c ∈ p, isRemoved c = false) (hs : p.head? ≠ some '/') :
    uriKey p = p := by
  rw [uriKey, clean_eq_self.2 hc, lstrip]
  cases p with
  | nil => rfl
  | cons x xs => exact List.dropWhile_cons_of_neg (by simpa using hs)

theorem not_removed_of_uriKey {p : Key} (h : uriKey p = p) {c : Char} (hc : c ∈ p) :
    isRemoved c = false := by
  rw [← h] at hc
  exact (mem_clean.1 ((List.dropWhile_sublist _).subset hc)).2

theorem head_uriKey (p : Key) : (uriKey p).head? ≠ some '/' := head?_lstrip _

theorem uriKey_runPrefix {a b : Str} (ha : a ≠ []) (hs : '/' ∉ a)
    (hca : ∀ c ∈ a, isRemoved c = false)
    (hcb : ∀ c ∈ b, isRemoved c = false) : uriKey (runPrefix a b) = runPrefix a b := by
  refine uriKey_eq_self (fun c hc => ?_) ?_
  · simp only [runPrefix, List.mem_append, List.mem_cons, List.not_mem_nil, or_false] at hc
    rcases hc with hc | rfl | hc | rfl
    · exact hca c hc
    · rfl
    · exact hcb c hc
    · rfl
  · obtain ⟨x, xs, rfl⟩ := List.exists_cons_of_ne_nil ha
    have hx : x ≠ '/' := fun h => hs (h ▸ List.mem_cons_self)
    simpa [runPrefix] using hx

/-- A character that neither separates segments nor means anything to the URI parser. -/
def isPlain (c : Char) : Bool := c != '/' && !isRemoved c && c != '?' && c != '#'

theorem isIdChar_plain {c : Char} (h : isIdChar c = true) : isPlain c = true := by
  by_contra hc
  simp only [isPlain, isRemoved, Bool.and_eq_true, bne_iff_ne, Bool.not_eq_true',
    Bool.or_eq_false_iff,
    beq_eq_false_iff_ne, not_and_or, not_not] at hc
  rcases hc with ((rfl | (rfl | rfl) | rfl) | rfl) | rfl <;> exact absurd h (by decide)

theorem isPlain_of_isHex {c : Char} (h : isHex c = true) : isPlain c = true := by
  obtain ⟨h₁, h₂, h₃, h₄, -⟩ := isHex_plain h
  simp [isPlain, h₁, h₂, h₃, h₄]

theorem isPlain_iff {c : Char} : isPlain c = true ↔
    c ≠ '/' ∧ isRemoved c = false ∧ c ≠ '?' ∧ c ≠ '#' := by
  simp [isPlain, and_assoc]

section Plain
variable {a b : Str} (ha : ∀ c ∈ a, isPlain c = true) (hb : ∀ c ∈ b, isPlain c = true)
include ha

theorem slash_not_mem_of_plain : '/' ∉ a := fun h => absurd (ha _ h) (by decide)

include hb

theorem isRefused_of_plain : isRefused (runPrefix a b) = false := by
  have h : ∀ c, isPlain c = false → c ≠ '/' → c ∉ runPrefix a b := fun c hc hs hm => by
    simp only [runPrefix, List.mem_append, List.mem_cons, List.not_mem_nil, or_false, hs,
      false_or] at hm
    rcases hm with hm | hm
    · simp [ha c hm] at hc
    · simp [hb c hm] at hc
  simp [isRefused, h '?' (by decide) (by decide), h '#' (by decide) (by decide)]

theorem uriKey_of_plain (hne : a ≠ []) : uriKey (runPrefix a b) = runPrefix a b :=
  uriKey_runPrefix hne (slash_not_mem_of_plain ha) (fun c hc => (isPlain_iff.1 (ha c hc)).2.1)
    fun c hc => (isPlain_iff.1 (hb c hc)).2.1

/-- The URI of a plain run prefix parses back to it. -/
theorem parse_artifactsUri (bucket : BucketName) (hne : a ≠ []) :
    parseS3Uri (artifactsUri bucket.name a b) = .ok ⟨bucket.name, runPrefix a b⟩ := by
  have h2 := runPrefix_isTwoField (slash_not_mem_of_plain ha) (slash_not_mem_of_plain hb)
  rw [artifactsUri, parseS3Uri_runPrefix bucket h2, isRefused_of_plain ha hb,
    uriKey_of_plain ha hb hne]
  rfl

end Plain

theorem safeIdBody_iff {s : Str} : safeIdBody s = true ↔ ∃ c t, s = c :: t ∧
    c.isAlphanum = true ∧ t.length ≤ 127 ∧ ∀ x ∈ t, isIdChar x = true := by
  cases s with
  | nil => simp [safeIdBody]
  | cons c t => simp [safeIdBody, and_assoc]

theorem plain_of_safeIdBody {s : Str} (h : safeIdBody s = true) :
    s ≠ [] ∧ ∀ c ∈ s, isPlain c = true := by
  obtain ⟨c, t, rfl, hc, -, ht⟩ := safeIdBody_iff.1 h
  refine ⟨by simp, List.forall_mem_cons.2 ⟨isIdChar_plain ?_, fun x hx => isIdChar_plain (ht x hx)⟩⟩
  simp [isIdChar, hc]

theorem plain_of_isRunId {s : Str} (h : isRunId s = true) : ∀ c ∈ s, isPlain c = true :=
  fun c hc => isPlain_of_isHex ((isRunId_iff.1 h).2 c hc)

end Accel.Model
