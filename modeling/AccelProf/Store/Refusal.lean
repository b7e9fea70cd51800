import AccelProf.Store.Upload

/-! Verified upload and what S3 itself answered: `upload_file` wraps a refusal into an exception
without a response, `head_object` raises it as it is, and the retry loop only looks at the
response. -/

namespace Accel.Model
open Data Program Prog

/-- What S3, or the connection to it, makes of the two requests of an attempt. -/
inductive S3Outcome where
  | uploadFails (e : ServiceError)
  | headFails (e : ServiceError)
  | reports (head : Head)

variable {fs : LocalFs} {path b : Str} {key : Key} {wrap : ServiceError → ServiceError}
  {s : ℕ → S3Outcome}
  {outcome : ℕ → Attempt} {i m first last : ℕ}

/-- What surfaces from the client: `upload_file` wraps an error that carries a response. -/
def S3Outcome.surfaces (wrap : ServiceError → ServiceError) : S3Outcome → Attempt
  | .uploadFails e => .uploadRaises (if e.response.isSome then wrap e else e)
  | .headFails e => .headRaises e
  | .reports head => .reports head

def S3Outcome.error? : S3Outcome → Option ServiceError
  | .uploadFails e => some e
  | .headFails e => some e
  | .reports _ => none

/-- S3 answers with a code that no retry will change. -/
def S3Outcome.Permanent (o : S3Outcome) : Prop :=
  ∃ e, o.error? = some e ∧ isNonRetryable (.service e) = true

def S3Outcome.Transient (o : S3Outcome) : Prop :=
  ∃ e, o.error? = some e ∧ isNonRetryable (.service e) = false

def Call.isTransfer : Call → Bool
  | .uploadFile .. => true
  | _ => false

def Call.isSleep : Call → Bool
  | .sleep _ => true
  | _ => false

/-- The run ends in an exception, with the file sent `i` times and no sleep at the end. -/
structure StopsAfter (i : ℕ) (calls : List Call) (r : Except PyExc Str) : Prop where
  raises : ∃ e, r = .error e
  transfers : calls.countP Call.isTransfer = i
  no_sleep : ∀ c, calls.getLast? = some c → c.isSleep = false

theorem countP_calls (a : Attempt) : (a.calls fs path b key).countP Call.isTransfer = 1 := by
  cases a <;> rfl

theorem getLast_calls (a : Attempt) :
    ∃ c, (a.calls fs path b key).getLast? = some c ∧ c.isSleep = false := by
  cases a <;> exact ⟨_, rfl, rfl⟩

/-- Every attempt sends the file once. -/
theorem countP_attemptsCalls (h : first ≤ last) :
    (attemptsCalls fs path b key outcome first last).countP Call.isTransfer = last + 1 - first := by
  induction h using Nat.decreasingInduction with
  | self =>
    rw [attemptsCalls_self, countP_calls]
    omega
  | of_succ first h ih =>
    have hsleep :
        ∀ d rest, (Call.sleep d :: rest).countP Call.isTransfer = rest.countP Call.isTransfer :=
      fun d rest => List.countP_cons_of_neg (by simp [Call.isTransfer])
    rw [attemptsCalls_succ (by omega), List.countP_append, hsleep, countP_calls, ih]
    omega

theorem getLast_attemptsCalls (h : first ≤ last) :
    ∃ c, (attemptsCalls fs path b key outcome first last).getLast? = some c ∧
    c.isSleep = false := by
  induction h using Nat.decreasingInduction with
  | self =>
    rw [attemptsCalls_self]
    exact getLast_calls _
  | of_succ first h ih =>
    obtain ⟨c, hc, hsleep⟩ := ih
    refine ⟨c, ?_, hsleep⟩
    rw [attemptsCalls_succ (by omega), List.getLast?_append, List.getLast?_cons, hc]
    rfl

/-- A failure of the transfer surfaces without a response, so it never ends the loop. -/
theorem uploadFails_undecided (hwrap : ∀ e, (wrap e).response = none) (e : ServiceError) :
    ¬((S3Outcome.uploadFails e).surfaces wrap).Decisive fs path := by
  have hnone : ∀ e' : ServiceError, e'.response = none → isNonRetryable (.service e') = false := by
    intro e' h
    show (e'.responseCode.any (· ∈ nonRetryable)) = false
    rw [ServiceError.responseCode, h]
    rfl
  have hsurface : isNonRetryable (.service (if e.response.isSome then wrap e else e)) = false := by
    split_ifs with h
    · exact hnone _ (hwrap e)
    · exact hnone e (by simpa using h)
  have hiff : ((S3Outcome.uploadFails e).surfaces wrap).Decisive fs path ↔ _ :=
    decisive_of_error rfl
  rw [hiff, hsurface]
  exact Bool.false_ne_true

theorem headFails_decisive {e : ServiceError} :
    ((S3Outcome.headFails e).surfaces wrap).Decisive fs path ↔ isNonRetryable (.service e) = true :=
  decisive_of_error rfl

theorem S3Outcome.Transient.undecided {o : S3Outcome} (hwrap : ∀ e, (wrap e).response = none)
    (h : o.Transient) :
    ¬(o.surfaces wrap).Decisive fs path := by
  obtain ⟨e, he, hr⟩ := h
  cases o with
  | uploadFails e' => exact uploadFails_undecided hwrap e'
  | headFails e' =>
    obtain rfl := Option.some.inj he
    rw [headFails_decisive, hr]
    exact Bool.false_ne_true
  | reports head => cases he

theorem Attempt.Ends.raises {a : Attempt} {e : ServiceError} {r : Except PyExc Str}
    (h : a.Ends fs path r)
    (he : a.error? = some e) : ∃ exc, r = .error exc := by
  cases hr : isNonRetryable (.service e) with
  | true => exact ⟨_, h.refused e he hr⟩
  | false => exact ⟨_, h.transient e he hr⟩

/-- Up to attempt `i` nothing ends the loop before it, so it ends with `i` precisely when `i` is
decisive or the last attempt. -/
theorem Retried.eq_iff {tr : List (Step Call Ans Unit ℕ)} {r : Except PyExc Str}
    (h : Retried fs path b key outcome 0 m tr r) (hi : 1 ≤ i) (hmax : i ≤ maxAttempts)
    (hbefore : ∀ j, 1 ≤ j → j < i → ¬(outcome j).Decisive fs path) :
    m = i ↔ (outcome i).Decisive fs path ∨ i = maxAttempts := by
  constructor
  · rintro rfl
    exact h.decided
  · intro hstop
    have hle : m ≤ i := by
      by_contra hlt
      rcases hstop with hd | rfl
      · exact h.undecided i hi (by omega) hd
      · exact hlt h.bound
    have hge : i ≤ m := by
      by_contra hlt
      rcases h.decided with hd | rfl
      · exact hbefore m h.made_lt (by omega) hd
      · exact hlt hmax
    omega

/-- A permanent refusal, after failures that were only transient, ends the upload right away
precisely when it is the head request that S3 refuses, or no attempt is left. -/
theorem refusal_not_retried_iff (hwrap : ∀ e, (wrap e).response = none)
    (hpath : fs.pathExists path = true)
    (hi : 1 ≤ i) (hmax : i ≤ 5) (hbefore : ∀ j, 1 ≤ j → j < i → (s j).Transient)
    (hperm : (s i).Permanent) :
    StopsAfter i
        ((run (scripted fun j => (s j).surfaces wrap) (uploadVerified fs path b key) 0).1.map
          Step.call)
        (run (scripted fun j => (s j).surfaces wrap) (uploadVerified fs path b key) 0).2.1 ↔
      (∃ e, s i = .headFails e) ∨ i = 5 := by
  obtain ⟨m, tr, r, hrun, hm⟩ : ∃ m tr r, run (scripted fun j => (s j).surfaces wrap)
      (uploadAttempts fs path b key maxAttempts 1 none) 0 = (tr, r, m) ∧
      Retried fs path b key (fun j => (s j).surfaces wrap) 0 m tr r :=
        run_uploadAttempts 4 0 none rfl
  have hup : run (scripted fun j => (s j).surfaces wrap) (uploadVerified fs path b key) 0 =
      (tr, r, m) := by
    rw [uploadVerified, hpath]
    exact hrun
  -- the wrapped exception of a transfer has no response, so it passes for transient
  have hdecisive : ((s i).surfaces wrap).Decisive fs path ↔ ∃ e, s i = .headFails e := by
    obtain ⟨e, he, hr⟩ := hperm
    cases ho : s i with
    | uploadFails e' => exact iff_of_false (uploadFails_undecided hwrap e') (by simp)
    | headFails e' =>
      rw [ho] at he
      obtain rfl := Option.some.inj he
      exact iff_of_true (headFails_decisive.2 hr) ⟨_, rfl⟩
    | reports head =>
      rw [ho] at he
      cases he
  have hsame : m = i ↔ (∃ e, s i = .headFails e) ∨ i = 5 :=
    (hm.eq_iff hi hmax fun j hj hlt => (hbefore j hj hlt).undecided hwrap).trans
      (or_congr_left hdecisive)
  rw [hup, ← hsame]
  -- each attempt makes one transfer
  have hcount : (tr.map Step.call).countP Call.isTransfer = m := by
    rw [hm.calls, countP_attemptsCalls hm.made_lt]
    omega
  constructor
  · exact fun h => hcount.symm.trans h.transfers
  · rintro rfl
    refine ⟨?_, hcount, ?_⟩
    · obtain ⟨e, he, -⟩ := hperm
      cases ho : s m with
      | uploadFails e' =>
        exact hm.ends.raises (e := if e'.response.isSome then wrap e' else e') (by rw [ho]; rfl)
      | headFails e' => exact hm.ends.raises (e := e') (by rw [ho]; rfl)
      | reports head => simp [ho, S3Outcome.error?] at he
    · rw [hm.calls]
      obtain ⟨c, hc, hsleep⟩ :
          ∃ c, (attemptsCalls fs path b key (fun j => (s j).surfaces wrap) 1 m).getLast? = some c ∧
          c.isSleep = false := getLast_attemptsCalls hm.made_lt
      intro c' hc'
      obtain rfl := Option.some.inj (hc.symm.trans hc')
      exact hsleep

def accessDenied : ServiceError := ⟨none, some ⟨some ⟨some "AccessDenied".toList⟩⟩⟩

/-- `S3UploadFailedError` has neither a response nor an error code. -/
def uploadFailedError (_ : ServiceError) : ServiceError := ⟨none, none⟩

/-- The first transfer is cut off; then the head request is refused. -/
def headRefused : ℕ → S3Outcome
  | 1 => .uploadFails ⟨none, none⟩
  | _ => .headFails accessDenied

theorem refusal_not_retried_iff_head :
    StopsAfter 2
      ((run (scripted fun j => (headRefused j).surfaces uploadFailedError)
        (uploadVerified sampleFs ['/', 't'] ['b'] sampleArtifact) 0).1.map Step.call)
      (run (scripted fun j => (headRefused j).surfaces uploadFailedError)
        (uploadVerified sampleFs ['/', 't'] ['b'] sampleArtifact) 0).2.1 := by
  have hbefore : ∀ j, 1 ≤ j → j < 2 → (headRefused j).Transient := by
    intro j hj hlt
    obtain rfl : j = 1 := by omega
    exact ⟨⟨none, none⟩, rfl, rfl⟩
  exact (refusal_not_retried_iff (fun _ => rfl) (by decide) (by decide) (by decide) hbefore
    ⟨accessDenied, rfl, by decide⟩).2 (.inl ⟨accessDenied, rfl⟩)

/-- S3 denies the very first transfer, and the file is sent five times. -/
theorem refusal_retried :
    let out := run
      (scripted fun _ => (S3Outcome.uploadFails accessDenied).surfaces uploadFailedError)
      (uploadVerified sampleFs ['/', 't'] ['b'] sampleArtifact) 0
    (S3Outcome.uploadFails accessDenied).Permanent ∧
    (out.1.map Step.call).countP Call.isTransfer = 5 ∧
      ¬StopsAfter 1 (out.1.map Step.call) out.2.1 := by
  intro out
  have hfive : (out.1.map Step.call).countP Call.isTransfer = 5 := by decide +kernel
  refine ⟨⟨accessDenied, rfl, by decide⟩, hfive, fun h => ?_⟩
  have hone : (out.1.map Step.call).countP Call.isTransfer = 1 := h.transfers
  omega

end Accel.Model
