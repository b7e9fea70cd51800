import AccelProf.Store.Atomicity

/-! Verified upload against every sequence of outcomes of its attempts: how often it sends the file,
how long it waits and how it ends. -/

namespace Accel.Model
open Data Program Prog

/-- What happens to one attempt: the transfer or the head request raises, or S3 reports what
landed. -/
inductive Attempt where
  | uploadRaises (e : ServiceError)
  | headRaises (e : ServiceError)
  | reports (head : Head)

/-- Services that give attempt `i` the outcome `outcome i`; the world counts the transfers made. -/
def scripted (outcome : ℕ → Attempt) (made : ℕ) : (c : Call) → Unit × Ans c × ℕ
  | .uploadFile .. => ((), match outcome (made + 1) with
      | .uploadRaises e => .error (.service e)
      | _ => .ok (), made + 1)
  | .headObject .. => ((), match outcome made with
      | .reports head => .ok head
      | .headRaises e => .error (.service e)
      | .uploadRaises e => .error (.service e), made)
  | .sleep _ => ((), .ok (), made)
  | _ => ((), .error (.service ⟨none, none⟩), made)

section
variable (fs : LocalFs) (path b : Str) (key : Key)

/-- S3 confirms the file: by its digest when it reports one of the whole object, else by its
size. -/
def Attempt.Verified : Attempt → Prop
  | .reports ⟨some remote, size⟩ =>
    if '-' ∈ remote then size = (fs.read path).length else remote = (fs.sha256 (fs.read path)).2
  | .reports ⟨none, size⟩ => size = (fs.read path).length
  | _ => False

/-- S3 reports something else than the file. -/
def Attempt.Mismatched (a : Attempt) : Prop := (∃ head, a = .reports head) ∧ ¬ a.Verified fs path

/-- The error an attempt raised. -/
def Attempt.error? : Attempt → Option ServiceError
  | .uploadRaises e => some e
  | .headRaises e => some e
  | .reports _ => none

def Attempt.Refused (a : Attempt) : Prop :=
  ∃ e, a.error? = some e ∧ isNonRetryable (.service e) = true

/-- Nothing more is to be tried after this attempt. -/
def Attempt.Decisive (a : Attempt) : Prop :=
  a.Verified fs path ∨ a.Mismatched fs path ∨ a.Refused

/-- The calls of one attempt. -/
def Attempt.calls : Attempt → List Call
  | .uploadRaises _ => [.uploadFile path b key (fs.read path) (fs.sha256 (fs.read path)).1]
  | _ => [.uploadFile path b key (fs.read path) (fs.sha256 (fs.read path)).1, .headObject b key]

/-- How a retry loop whose last attempt was `a` ends. -/
structure Attempt.Ends (a : Attempt) (r : Except PyExc Str) : Prop where
  verified : a.Verified fs path → r = .ok (fs.sha256 (fs.read path)).1
  mismatched : a.Mismatched fs path → ∃ e, r = .error e ∧ e.isVerification = true
  refused : ∀ e, a.error? = some e → isNonRetryable (.service e) = true → r = .error (.service e)
  transient : ∀ e, a.error? = some e → isNonRetryable (.service e) = false →
    r = .error (.uploadFailed maxAttempts (some (.service e)))

end

section Once
variable {fs : LocalFs} {path b : Str} {key : Key} {outcome : ℕ → Attempt} {made : ℕ}

/-- The result of one attempt. -/
inductive Attempt.Results (fs : LocalFs) (path : Str) : Attempt → Except PyExc Str → Prop
  | verified {a : Attempt} (h : a.Verified fs path) :
    Results fs path a (.ok (fs.sha256 (fs.read path)).1)
  | mismatched {a : Attempt} {e : PyExc} (h : a.Mismatched fs path) (he : e.isVerification = true) :
    Results fs path a (.error e)
  | raised {a : Attempt} {e : ServiceError} (h : a.error? = some e) :
    Results fs path a (.error (.service e))

def reportTrace (fs : LocalFs) (path b : Str) (key : Key) (made : ℕ) (head : Head) :
    List (Step Call Ans Unit ℕ) :=
  [⟨.uploadFile path b key (fs.read path) (fs.sha256 (fs.read path)).1, (), .ok (), made + 1⟩,
    ⟨.headObject b key, (), .ok head, made + 1⟩]

/-- The comparison with what S3 reports. -/
theorem run_uploadOnce_reports (fs : LocalFs) (path b : Str) (key : Key) {checksum : Option Str}
    {size : ℕ}
    (ho : outcome (made + 1) = .reports ⟨checksum, size⟩) :
    ∃ r, run (scripted outcome) (uploadOnce fs path b key) made =
        (reportTrace fs path b key made ⟨checksum, size⟩, r, made + 1) ∧
      (Attempt.reports ⟨checksum, size⟩).Results fs path r := by
  have hmis : ∀ {a : Attempt}, (∃ head, a = .reports head) → ¬ a.Verified fs path →
      a.Mismatched fs path := fun h hn => ⟨h, hn⟩
  have hsize : ∀ {c : Option Str}, ((Attempt.reports ⟨c, size⟩).Verified fs path ↔
      size = (fs.read path).length) →
      (Attempt.reports ⟨c, size⟩).Results fs path (if size ≠ (fs.read path).length then
        .error (.sizeMismatch key size (fs.read path).length)
      else .ok (fs.sha256 (fs.read path)).1) := fun {c} hc => by
    split_ifs with hs
    · exact .mismatched (hmis ⟨_, rfl⟩ fun h => hs (hc.1 h)) rfl
    · exact .verified (hc.2 (not_not.1 hs))
  cases checksum with
  | none =>
    refine ⟨_, ?_, hsize Iff.rfl⟩
    by_cases hs : size = (fs.read path).length <;>
      simp [uploadOnce, request, perform, run, scripted, ho, reportTrace, hs]
  | some remote =>
    by_cases hd : '-' ∈ remote
    · refine ⟨_, ?_, hsize (by simp [Attempt.Verified, hd])⟩
      by_cases hs : size = (fs.read path).length <;>
        simp [uploadOnce, request, perform, run, scripted, ho, reportTrace, hs, hd]
    · have hv : (Attempt.reports ⟨some remote, size⟩).Verified fs path ↔
          remote = (fs.sha256 (fs.read path)).2 := by simp [Attempt.Verified, hd]
      by_cases hr : remote = (fs.sha256 (fs.read path)).2
      · refine ⟨_, ?_, .verified (hv.2 hr)⟩
        subst hr
        simp [uploadOnce, request, perform, run, scripted, ho, reportTrace, hd]
      · refine ⟨.error (.checksumMismatch key remote (fs.sha256 (fs.read path)).2), ?_,
          .mismatched (hmis ⟨_, rfl⟩ fun h => hr (hv.1 h)) rfl⟩
        simp [uploadOnce, request, perform, run, scripted, ho, reportTrace, hd, hr]

theorem run_uploadOnce (fs : LocalFs) (path b : Str) (key : Key) (outcome : ℕ → Attempt)
    (made : ℕ) :
    ∃ tr r, run (scripted outcome) (uploadOnce fs path b key) made = (tr, r, made + 1) ∧
      tr.map Step.call = (outcome (made + 1)).calls fs path b key ∧
      (outcome (made + 1)).Results fs path r := by
  let send : Call := .uploadFile path b key (fs.read path) (fs.sha256 (fs.read path)).1
  cases ho : outcome (made + 1) with
  | uploadRaises e =>
    refine ⟨[⟨send, (), .error (.service e), made + 1⟩], .error (.service e), ?_, rfl, .raised rfl⟩
    simp [uploadOnce, request, perform, run, scripted, ho, send]
  | headRaises e =>
    refine ⟨[⟨send, (), .ok (), made + 1⟩, ⟨.headObject b key, (), .error (.service e), made + 1⟩],
      .error (.service e), ?_, rfl, .raised rfl⟩
    simp [uploadOnce, request, perform, run, scripted, ho, send]
  | reports head =>
    obtain ⟨r, hrun, hr⟩ := run_uploadOnce_reports fs path b key ho
    exact ⟨_, r, hrun, rfl, hr⟩

end Once

section Ends
variable {fs : LocalFs} {path : Str} {a : Attempt} {e : ServiceError} {r : Except PyExc Str}

theorem attempt_cases (fs : LocalFs) (path : Str) (a : Attempt) :
    a.Verified fs path ∨ a.Mismatched fs path ∨ ∃ e, a.error? = some e := by
  cases a with
  | uploadRaises e => exact .inr (.inr ⟨e, rfl⟩)
  | headRaises e => exact .inr (.inr ⟨e, rfl⟩)
  | reports head =>
    by_cases h : (Attempt.reports head).Verified fs path
    · exact .inl h
    · exact .inr (.inl ⟨⟨head, rfl⟩, h⟩)

theorem not_verified_of_error (h : a.error? = some e) : ¬ a.Verified fs path := by
  cases a <;> first | exact id | cases h

theorem not_mismatched_of_error (h : a.error? = some e) : ¬ a.Mismatched fs path := by
  rintro ⟨⟨head, rfl⟩, -⟩
  cases h

/-- A raised error decides an attempt exactly when it is not worth a retry. -/
theorem decisive_of_error (h : a.error? = some e) :
    a.Decisive fs path ↔ isNonRetryable (.service e) = true := by
  constructor
  · rintro (hv | hm | ⟨e', he', hn⟩)
    · exact absurd hv (not_verified_of_error h)
    · exact absurd hm (not_mismatched_of_error h)
    · cases h.symm.trans he'
      exact hn
  · exact fun hn => .inr (.inr ⟨e, h, hn⟩)

theorem ends_of_verified (h : a.Verified fs path) :
    a.Ends fs path (.ok (fs.sha256 (fs.read path)).1) := by
  have he : ∀ e, a.error? ≠ some e := fun e he => not_verified_of_error he h
  exact ⟨fun _ => rfl, fun hm => absurd h hm.2, fun e h' => absurd h' (he e),
    fun e h' => absurd h' (he e)⟩

theorem ends_of_mismatched {exc : PyExc} (h : a.Mismatched fs path)
    (hv : exc.isVerification = true) : a.Ends fs path (.error exc) := by
  have he : ∀ e, a.error? ≠ some e := fun e he => not_mismatched_of_error he h
  exact ⟨fun h' => absurd h' h.2, fun _ => ⟨exc, rfl, hv⟩, fun e h' => absurd h' (he e),
    fun e h' => absurd h' (he e)⟩

theorem ends_of_raised (h : a.error? = some e)
    (hr : r = if isNonRetryable (.service e) then .error (.service e)
      else .error (.uploadFailed maxAttempts (some (.service e)))) : a.Ends fs path r := by
  refine ⟨fun hv => absurd hv (not_verified_of_error h),
    fun hm => absurd hm (not_mismatched_of_error h),
    fun e' he' hn => ?_, fun e' he' hn => ?_⟩
  all_goals
    cases h.symm.trans he'
    rw [hr, hn]
    rfl

theorem Attempt.Ends.ok_iff (h : a.Ends fs path r) (hex : Str) :
    r = .ok hex ↔ a.Verified fs path ∧ hex = (fs.sha256 (fs.read path)).1 := by
  constructor
  · rintro rfl
    rcases attempt_cases fs path a with hv | hm | ⟨e, he⟩
    · exact ⟨hv, Except.ok.inj (h.verified hv)⟩
    · obtain ⟨e, he, -⟩ := h.mismatched hm
      cases he
    · cases hn : isNonRetryable (.service e) with
      | true => cases h.refused e he hn
      | false => cases h.transient e he hn
  · rintro ⟨hv, rfl⟩
    exact h.verified hv

theorem Attempt.Ends.verification_iff (h : a.Ends fs path r) :
    (∃ e, r = .error e ∧ e.isVerification = true) ↔ a.Mismatched fs path := by
  refine ⟨?_, h.mismatched⟩
  rintro ⟨e, rfl, hv⟩
  rcases attempt_cases fs path a with h' | h' | ⟨e', he'⟩
  · cases h.verified h'
  · exact h'
  · cases hn : isNonRetryable (.service e') with
    | true =>
      cases h.refused e' he' hn
      cases hv
    | false =>
      cases h.transient e' he' hn
      cases hv

theorem Attempt.Ends.uploadFailed_iff (h : a.Ends fs path r) :
    (∃ last, r = .error (.uploadFailed maxAttempts last)) ↔ ¬ a.Decisive fs path := by
  constructor
  · rintro ⟨last, rfl⟩ (hv | hm | ⟨e, he, hn⟩)
    · cases h.verified hv
    · obtain ⟨e, he, hv⟩ := h.mismatched hm
      cases he
      cases hv
    · cases h.refused e he hn
  · intro hd
    rcases attempt_cases fs path a with h' | h' | ⟨e, he⟩
    · exact absurd (.inl h') hd
    · exact absurd (.inr (.inl h')) hd
    · exact ⟨_, h.transient e he (by simpa using fun hn => hd ((decisive_of_error he).2 hn))⟩

end Ends

section Loop
variable {fs : LocalFs} {path b : Str} {key : Key} {outcome : ℕ → Attempt}

/-- The calls of the attempts from number `first` to number `last`, with the sleeps between them. -/
def attemptsCalls (fs : LocalFs) (path b : Str) (key : Key) (outcome : ℕ → Attempt)
    (first last : ℕ) : List Call :=
  (List.range' first (last + 1 - first)).flatMap fun i =>
    (outcome i).calls fs path b key ++ if i < last then [.sleep (1 / 2 * 2 ^ (i - 1))] else []

theorem attemptsCalls_self (n : ℕ) : attemptsCalls fs path b key outcome n n =
    (outcome n).calls fs path b key := by
  simp [attemptsCalls]

theorem attemptsCalls_succ {first last : ℕ} (h : first < last) :
    attemptsCalls fs path b key outcome first last = (outcome first).calls fs path b key ++
      .sleep (1 / 2 * 2 ^ (first - 1)) :: attemptsCalls fs path b key outcome (first + 1) last := by
  have hlen : last + 1 - first = (last + 1 - (first + 1)) + 1 := by omega
  rw [attemptsCalls, hlen, List.range'_succ, List.flatMap_cons, if_pos h]
  simp [attemptsCalls]

/-- What the loop does after an attempt, with `n` attempts left. -/
def afterAttempt (fs : LocalFs) (path b : Str) (key : Key) (n attempt : ℕ) :
    Except PyExc Str → Action Str
  | .ok hex => ret hex
  | .error e =>
    if e.isVerification || isNonRetryable e then raise e
    else if attempt < maxAttempts then
      (request (.sleep (baseDelay * 2 ^ (attempt - 1)))).bind fun _ =>
        uploadAttempts fs path b key n (attempt + 1) (some e)
    else uploadAttempts fs path b key n (attempt + 1) (some e)

theorem run_uploadAttempts_succ {made : ℕ} (n attempt : ℕ) (last : Option PyExc)
    {tr : List (Step Call Ans Unit ℕ)} {r : Except PyExc Str}
    (h : run (scripted outcome) (uploadOnce fs path b key) made = (tr, r, made + 1)) :
    run (scripted outcome) (uploadAttempts fs path b key (n + 1) attempt last) made =
      (tr ++ (run (scripted outcome) (afterAttempt fs path b key n attempt r) (made + 1)).1,
        (run (scripted outcome) (afterAttempt fs path b key n attempt r) (made + 1)).2) := by
  have hatt : run (scripted outcome) (uploadOnce fs path b key).attempt made =
      (tr, .ok r, made + 1) := by rw [run_attempt, h]
  rw [uploadAttempts, bind_eq, run_bind_ok _ hatt]
  cases r <;> rfl

/-- Attempts number `made + 1` to `m` were made; the first decisive one ended the loop, or the last
one it has. -/
structure Retried (fs : LocalFs) (path b : Str) (key : Key) (outcome : ℕ → Attempt) (made m : ℕ)
    (tr : List (Step Call Ans Unit ℕ)) (r : Except PyExc Str) : Prop where
  made_lt : made < m
  bound : m ≤ maxAttempts
  undecided : ∀ i, made < i → i < m → ¬ (outcome i).Decisive fs path
  decided : (outcome m).Decisive fs path ∨ m = maxAttempts
  calls : tr.map Step.call = attemptsCalls fs path b key outcome (made + 1) m
  ends : (outcome m).Ends fs path r

/-- The next attempt is the last one. -/
theorem retried_stop {n made : ℕ} {last : Option PyExc} {tr : List (Step Call Ans Unit ℕ)}
    {r r' : Except PyExc Str} (hmade : made < maxAttempts)
    (h : run (scripted outcome) (uploadOnce fs path b key) made = (tr, r, made + 1))
    (hcalls : tr.map Step.call = (outcome (made + 1)).calls fs path b key)
    (hafter : run (scripted outcome) (afterAttempt fs path b key n (made + 1) r) (made + 1) =
      ([], r', made + 1))
    (hd : (outcome (made + 1)).Decisive fs path ∨ made + 1 = maxAttempts)
    (he : (outcome (made + 1)).Ends fs path r') : ∃ m tr r,
      run (scripted outcome) (uploadAttempts fs path b key (n + 1) (made + 1) last) made =
        (tr, r, m) ∧
      Retried fs path b key outcome made m tr r := by
  have hstep := run_uploadAttempts_succ n (made + 1) last h
  rw [hafter, List.append_nil] at hstep
  refine ⟨made + 1, tr, r', hstep, by omega, hmade, fun i h₁ h₂ => by omega, hd, ?_, he⟩
  rw [hcalls, attemptsCalls_self]

/-- The loop from attempt number `made + 1` on, with `n + 1` attempts left. -/
theorem run_uploadAttempts (n : ℕ) : ∀ made last, made + (n + 1) = maxAttempts → ∃ m tr r,
    run (scripted outcome) (uploadAttempts fs path b key (n + 1) (made + 1) last) made =
    (tr, r, m) ∧
    Retried fs path b key outcome made m tr r := by
  induction n with
  | zero =>
    intro made last hmade
    obtain ⟨tr, r, hrun, hcalls, hr⟩ := run_uploadOnce fs path b key outcome made
    have hlt : ¬ made + 1 < maxAttempts := by omega
    cases hr with
    | verified h =>
      exact retried_stop (by omega) hrun hcalls rfl (.inl (.inl h)) (ends_of_verified h)
    | mismatched h he =>
      exact retried_stop (by omega) hrun hcalls (by rw [afterAttempt, he]; rfl)
        (.inl (.inr (.inl h)))
        (ends_of_mismatched h he)
    | @raised e h =>
      refine retried_stop (by omega) hrun hcalls ?_ (.inr hmade) (ends_of_raised h rfl)
      split_ifs with hn <;> simp [afterAttempt, hn, hlt, uploadAttempts, PyExc.isVerification]
  | succ n ih =>
    intro made last hmade
    obtain ⟨tr, r, hrun, hcalls, hr⟩ := run_uploadOnce fs path b key outcome made
    have hlt : made + 1 < maxAttempts := by omega
    cases hr with
    | verified h =>
      exact retried_stop (by omega) hrun hcalls rfl (.inl (.inl h)) (ends_of_verified h)
    | mismatched h he =>
      exact retried_stop (by omega) hrun hcalls (by rw [afterAttempt, he]; rfl)
        (.inl (.inr (.inl h)))
        (ends_of_mismatched h he)
    | @raised e h =>
      by_cases hn : isNonRetryable (.service e) = true
      · exact retried_stop (by omega) hrun hcalls (by rw [afterAttempt, hn, Bool.or_true]; rfl)
          (.inl (.inr (.inr ⟨e, h, hn⟩))) (ends_of_raised h (by rw [if_pos hn]))
      -- a transient failure: wait, then go on with one attempt less
      · obtain ⟨m, tr', r', hrun', hm⟩ := ih (made + 1) (some (.service e)) (by omega)
        have hstep := run_uploadAttempts_succ (n + 1) (made + 1) last hrun
        have hafter : run (scripted outcome)
            (afterAttempt fs path b key (n + 1) (made + 1) (.error (.service e))) (made + 1) =
            (⟨.sleep (baseDelay * 2 ^ made), (), .ok (), made + 1⟩ :: tr', r', m) := by
          simp [afterAttempt, hn, hlt, PyExc.isVerification, request, perform, run, scripted, hrun']
        rw [hafter] at hstep
        have hund : ¬ (outcome (made + 1)).Decisive fs path :=
          fun hd => hn ((decisive_of_error h).1 hd)
        refine ⟨m, _, r', hstep, (Nat.lt_succ_self made).trans hm.made_lt, hm.bound,
          fun i h₁ h₂ => ?_,
          hm.decided, ?_, hm.ends⟩
        · rcases Nat.eq_or_lt_of_le h₁ with rfl | h₁
          · exact hund
          · exact hm.undecided i h₁ h₂
        · rw [List.map_append, List.map_cons, hcalls, hm.calls, attemptsCalls_succ hm.made_lt]
          rfl

end Loop

/-- Verified upload: attempts are made up to the first that verifies, mismatches or is refused, at
most five, with exponential sleeps in between; the digest is returned exactly when the last attempt
verified, and every other end is an error that says why. -/
theorem uploadVerified_bounded (fs : LocalFs) (path b : Str) (key : Key) (outcome : ℕ → Attempt)
    (hpath : fs.pathExists path = true) :
    ∃ n, 1 ≤ n ∧ n ≤ 5 ∧ (∀ i, 1 ≤ i → i < n → ¬ (outcome i).Decisive fs path) ∧
      ((outcome n).Decisive fs path ∨ n = 5) ∧
      let out := run (scripted outcome) (uploadVerified fs path b key) 0
      out.2.2 = n ∧
      out.1.map Step.call = (List.range' 1 n).flatMap (fun i =>
        (outcome i).calls fs path b key ++ if i < n then [.sleep (1 / 2 * 2 ^ (i - 1))] else []) ∧
      (∀ hex, out.2.1 = .ok hex ↔
        (outcome n).Verified fs path ∧ hex = (fs.sha256 (fs.read path)).1) ∧
      ((∃ e, out.2.1 = .error e ∧ e.isVerification = true) ↔ (outcome n).Mismatched fs path) ∧
      (∀ e, (outcome n).error? = some e → isNonRetryable (.service e) = true →
        out.2.1 = .error (.service e)) ∧
      ((∃ last, out.2.1 = .error (.uploadFailed 5 last)) ↔ ¬ (outcome n).Decisive fs path) := by
  obtain ⟨n, tr, r, hrun, hn⟩ : ∃ n tr r, run (scripted outcome)
      (uploadAttempts fs path b key maxAttempts 1 none) 0 = (tr, r, n) ∧
      Retried fs path b key outcome 0 n tr r := run_uploadAttempts 4 0 none rfl
  have hup : run (scripted outcome) (uploadVerified fs path b key) 0 = (tr, r, n) := by
    rw [uploadVerified, hpath]
    exact hrun
  refine ⟨n, hn.made_lt, hn.bound, hn.undecided, hn.decided, ?_⟩
  rw [hup]
  exact ⟨rfl, hn.calls, hn.ends.ok_iff, hn.ends.verification_iff, hn.ends.refused,
    hn.ends.uploadFailed_iff⟩

/-- The transfer is cut off, then the head request, then the object is there in two parts. -/
def thirdTry : ℕ → Attempt
  | 1 => .uploadRaises unavailable
  | 2 => .headRaises unavailable
  | _ => .reports ⟨some "digest-2".toList, 0⟩

theorem uploadVerified_bounded_thirdTry :
    let out := run (scripted thirdTry) (uploadVerified sampleFs ['/', 't'] ['b'] sampleArtifact) 0
    out.2.2 = 3 ∧ out.2.1 = .ok (sampleFs.sha256 []).1 := by
  obtain ⟨n, -, -, -, -, hn, -, hok, -⟩ :=
    uploadVerified_bounded sampleFs ['/', 't'] ['b'] sampleArtifact thirdTry (by decide)
  have h3 : (run (scripted thirdTry) (uploadVerified sampleFs ['/', 't'] ['b'] sampleArtifact)
      0).2.2 =
      3 := by decide +kernel
  obtain rfl : n = 3 := hn.symm.trans h3
  exact ⟨h3, (hok _).2 ⟨rfl, rfl⟩⟩

end Accel.Model
