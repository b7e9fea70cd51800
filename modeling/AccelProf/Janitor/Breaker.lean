import AccelProf.Janitor.Authority
import AccelProf.Spec.Reference

/-! When a sweep aborts. The survey asks MLflow about the considered prefixes, and the circuit
breaker compares the orphans among them with their number. -/

namespace Accel.Model
open Data Program Prog

/-- MLflow's answer makes the blobs of a run garbage. -/
def isGone (ask : Str → Except PyExc (Str × Run)) (id : Str) : Bool :=
  match ask id with
  | .ok run => dispositionOf (toRef run) = .orphan
  | .error e => e.isNotFound

/-- MLflow's answer is neither a record nor an authoritative absence. -/
def isUnanswered (ask : Str → Except PyExc (Str × Run)) (id : Str) : Bool :=
  match ask id with
  | .ok _ => false
  | .error e => !e.isNotFound

namespace Janitor
variable (j : Janitor) (m : Bucket) (ask : Str → Except PyExc (Str × Run))

/-- Past the grace period and with a run id: the prefixes MLflow is asked about. -/
def isConsidered (pre : Key) : Bool := !j.recent m pre && matchesRunId (runIdOf pre)

def isOrphaned (pre : Key) : Bool :=
  j.isConsidered m pre && isGone ask (runIdOf pre) && !m.marked pre

def consideredCount : ℕ := (m.runPrefixes.filter (j.isConsidered m)).length

def unheldCount : ℕ :=
  (m.runPrefixes.filter fun pre => j.isConsidered m pre && !m.marked pre).length

def orphanCount : ℕ := (m.runPrefixes.filter (j.isOrphaned m ask)).length

/-- Of `count` considered prefixes, `gone` are more than the fraction allows, as the product of
doubles has it. -/
def Exceeds (count gone : ℕ) : Prop := (j.maxOrphanFraction.mulInt count).below gone = true

instance (count gone : ℕ) : Decidable (j.Exceeds count gone) := inferInstanceAs (Decidable (_ = _))

/-- At least five prefixes are considered, and too many of them are orphaned. -/
def BreakerTrips : Prop := minScannedForFraction ≤ j.consideredCount m ∧
  j.Exceeds (j.consideredCount m) (j.orphanCount m ask)

end Janitor

variable {j : Janitor} {m : Bucket} {ask : Str → Except PyExc (Str × Run)} {v : Key → Verdict}
  {F : Call → Fate → Prop} {w w' : World} {tr : List (Step Call Ans Fate World)}

section Product

theorem le_doubleLimit {n : ℕ} (hn : n ≤ 1024) : 2 ^ n ≤ doubleLimit := by
  rw [doubleLimit]
  exact pow_le_pow_right₀ one_le_two hn

theorem below_finite {q : ℚ} {n : ℤ} : (PyFloat.finite q).below n = true ↔ q < n :=
  decide_eq_true_iff

theorem not_le_neg_doubleLimit {q : ℚ} (hq : 0 ≤ q) : ¬ q ≤ -doubleLimit := by
  have hone : 1 ≤ doubleLimit := le_doubleLimit (n := 0) (Nat.zero_le _)
  have hpos : (0 : ℚ) < doubleLimit := by exact_mod_cast hone
  linarith

theorem below_ofRounded {q : ℚ} (hq : 0 ≤ q) : (PyFloat.ofRounded q).below 0 = false := by
  unfold PyFloat.ofRounded
  rw [if_neg (not_le_neg_doubleLimit hq)]
  split_ifs
  · rfl
  · exact decide_eq_false (not_lt.2 (by exact_mod_cast hq))

/-- A fraction that is not negative allows at least no orphan. -/
theorem below_mulInt {x : PyFloat} {n : ℤ} (hx : x.below 0 = false) (hn : 0 < n) :
    (x.mulInt n).below 0 = false := by
  cases x with
  | finite q =>
    have hq : (0 : ℚ) ≤ q := by simpa [PyFloat.below] using hx
    have hcount : 0 ≤ binary64.round n := binary64.round_nonneg (by exact_mod_cast hn.le)
    exact below_ofRounded (binary64.round_nonneg (mul_nonneg hq hcount))
  | posInf =>
    show (if 0 < n then PyFloat.posInf else _).below 0 = false
    rw [if_pos hn]
    rfl
  | negInf => cases hx
  | nan => rfl

/-- With the default of one half, which no rounding touches, more than half must be orphaned. -/
theorem exceeds_half (hj : j.maxOrphanFraction = .finite (1 / 2)) {count gone : ℕ}
    (hcount : count < 2 ^ 53) : j.Exceeds count gone ↔ count < 2 * gone := by
  have habs : |(count : ℤ)| < 2 ^ binary64.prec := by
    rw [abs_of_nonneg (by omega)]
    exact_mod_cast hcount
  have hint : binary64.round ((count : ℤ) : ℚ) = count := by
    simpa using binary64.round_eq_self (e := 0) habs (by decide)
  have hhalf : binary64.round (1 / 2 * count) = count / 2 := by
    have h := binary64.round_eq_self (e := -1) habs (by decide)
    rw [zpow_neg_one, Int.cast_natCast] at h
    rw [one_div, mul_comm, h]
    rfl
  have hpos : (0 : ℚ) ≤ count / 2 := by positivity
  have hsmall : ¬ (doubleLimit : ℚ) ≤ count / 2 := by
    have hlimit : count < doubleLimit := hcount.trans_le (le_doubleLimit (by decide))
    have : (count : ℚ) < doubleLimit := Nat.cast_lt.2 hlimit
    linarith
  have hproduct : j.maxOrphanFraction.mulInt count = .finite (count / 2) := by
    rw [hj]
    unfold PyFloat.mulInt PyFloat.ofRounded
    simp only [hint, hhalf, if_neg hsmall, if_neg (not_le_neg_doubleLimit hpos)]
  unfold Janitor.Exceeds
  rw [hproduct]
  rw [below_finite, Int.cast_natCast, div_lt_iff₀ two_pos, mul_comm, ← Nat.cast_ofNat,
    ← Nat.cast_mul, Nat.cast_lt]

end Product

theorem tellOf_cases (ask : Str → Except PyExc (Str × Run)) (id : Str) :
    (∃ d, tellOf ask id = .ok d ∧ isUnanswered ask id = false ∧
      (d = .orphan ↔ isGone ask id = true)) ∨
    ((∃ e, tellOf ask id = .error e) ∧ isUnanswered ask id = true) := by
  rw [tellOf, isUnanswered, isGone]
  cases ask id with
  | ok run => exact .inl ⟨_, rfl, rfl, by simp⟩
  | error e =>
    cases hn : e.isNotFound with
    | true => exact .inl ⟨.orphan, by simp [hn], by simp [hn], by simp [hn]⟩
    | false => exact .inr ⟨⟨_, by simp [hn]; rfl⟩, by simp [hn]⟩

theorem ofDisposition_eq_orphan {d : Disposition} {stale held : Bool} :
    Verdict.ofDisposition d stale held = .orphan ↔ d = .orphan ∧ held = false := by
  cases d <;> cases stale <;> cases held <;> simp [Verdict.ofDisposition]

theorem ofDisposition_ne {d : Disposition} {stale held : Bool} :
    Verdict.ofDisposition d stale held ≠ .recent ∧
      Verdict.ofDisposition d stale held ≠ .foreign := by
  cases d <;> cases stale <;> cases held <;> simp [Verdict.ofDisposition]

/-- A decision fails exactly at a considered prefix whose query is not answered. -/
theorem judge_error_iff {pre : Key} : (∃ e, j.judge m (tellOf ask) pre = .error e) ↔
    j.isConsidered m pre = true ∧ isUnanswered ask (runIdOf pre) = true := by
  rw [Janitor.judge, Janitor.isConsidered]
  cases j.recent m pre
  · cases matchesRunId (runIdOf pre)
    · simp
    · rcases tellOf_cases ask (runIdOf pre) with ⟨d, hd, hu, -⟩ | ⟨⟨e, he⟩, hu⟩
      · simp [hd, hu, Except.map]
      · simp [he, hu, Except.map]
  · simp

theorem judge_ok {pre : Key} {d : Verdict} (h : j.judge m (tellOf ask) pre = .ok d) :
    (d = .recent ↔ j.recent m pre = true) ∧
    (d = .foreign ↔ j.recent m pre = false ∧ matchesRunId (runIdOf pre) = false) ∧
    (d = .orphan ↔ j.isOrphaned m ask pre = true) := by
  rw [Janitor.judge] at h
  rw [Janitor.isOrphaned, Janitor.isConsidered]
  cases hr : j.recent m pre
  · cases hm : matchesRunId (runIdOf pre)
    · simp only [hr, hm, Bool.false_eq_true, if_false, Bool.not_false, if_true] at h
      obtain rfl := Except.ok.inj h
      simp
    · simp only [hr, hm, Bool.false_eq_true, if_false, Bool.not_true] at h
      rcases tellOf_cases ask (runIdOf pre) with ⟨d', hd, -, hg⟩ | ⟨⟨e, he⟩, -⟩
      · rw [hd] at h
        obtain rfl := Except.ok.inj h
        simp [ofDisposition_ne, ofDisposition_eq_orphan, hg]
      · rw [he] at h
        cases h
  · simp only [hr, if_true] at h
    obtain rfl := Except.ok.inj h
    simp

theorem length_filter_three {α : Type} {p q r : α → Bool} {xs : List α}
    (h : ∀ x ∈ xs, (p x).toNat + (q x).toNat + (r x).toNat = 1) :
    xs.length = (xs.filter p).length + (xs.filter q).length + (xs.filter r).length := by
  induction xs with
  | nil => rfl
  | cons x xs ih =>
    have hx := h x (by simp)
    have := ih fun y hy => h y (by simp [hy])
    cases hp : p x <;> cases hq : q x <;> cases hr : r x <;> simp [hp, hq, hr] at hx ⊢ <;> omega

section Report
variable (hv : ∀ pre ∈ m.runPrefixes, j.judge m (tellOf ask) pre = .ok (v pre))
include hv

/-- What the report leaves after the recent and the foreign prefixes are the considered ones. -/
theorem considered_report : Janitor.considered (j.report m v) = j.consideredCount m := by
  have h := length_filter_three (p := (v · = .recent)) (q := (v · = .foreign))
    (r := j.isConsidered m) fun pre (hpre : pre ∈ m.runPrefixes) => by
      obtain ⟨h₁, h₂, -⟩ := judge_ok (hv pre hpre)
      simp only [h₁, h₂, Janitor.isConsidered]
      cases j.recent m pre <;> cases matchesRunId (runIdOf pre) <;> rfl
  simp only [Janitor.considered, Janitor.report, Janitor.uris, List.length_map,
    Janitor.consideredCount]
  omega

theorem orphans_report : (j.report m v).orphans.length = j.orphanCount m ask := by
  rw [Janitor.orphanCount, Janitor.report, Janitor.uris, List.length_map]
  refine congrArg List.length (List.filter_congr fun pre hpre => ?_)
  rw [Bool.eq_iff_iff, decide_eq_true_iff]
  exact (judge_ok (hv pre hpre)).2.2

theorem ratioTripped_report : j.ratioTripped (j.report m v) = true ↔ j.BreakerTrips m ask := by
  rw [Janitor.ratioTripped, considered_report hv, orphans_report hv, Janitor.BreakerTrips,
    decide_eq_true_iff]
  exact and_congr_left fun _ => by norm_cast

end Report

theorem checkCanary_ne_ok : checkCanary ask ≠ .ok () ↔ isUnanswered ask canaryRunId = true := by
  rw [checkCanary, isUnanswered]
  cases ask canaryRunId with
  | ok run => simp
  | error e => cases hn : e.isNotFound <;> simp [hn]

theorem ratioTripped_plan : j.ratioTripped (j.plan w) = true ↔
    j.BreakerTrips (w.s3 j.bucket.name) w.ask :=
  ratioTripped_report fun _ _ => judge_ask w _ _

theorem s3Uri_injective (b : Str) : Function.Injective (s3Uri b) := fun p q h => by
  simpa [s3Uri] using h

theorem mem_uris {p : Key} {pres : List Key} : s3Uri j.bucket.name p ∈ j.uris pres ↔ p ∈ pres :=
  List.mem_map_of_injective (s3Uri_injective _)

/-- An orphan prefix, as a property of the bucket and of MLflow's records. -/
def Janitor.IsOrphan (j : Janitor) (w : World) (p : Key) : Prop :=
  p ∈ (w.s3 j.bucket.name).runPrefixes ∧ j.isOrphaned (w.s3 j.bucket.name) w.ask p = true

theorem mem_orphanPrefixes_iff {p : Key} : p ∈ j.orphanPrefixes w ↔ j.IsOrphan w p := by
  rw [mem_orphanPrefixes, Janitor.IsOrphan, and_congr_right_iff]
  exact fun _ => (judge_ok (judge_ask w _ p)).2.2

/-- To a server without runs every considered prefix is gone, held or not. -/
theorem orphanCount_of_empty (hempty : ∀ id, w.mlflow.runs id = none) :
    j.orphanCount m w.ask = j.unheldCount m := by
  have hgone : ∀ id, isGone w.ask id = true := fun id => by
    rw [isGone, World.ask, hempty]
    rfl
  refine congrArg List.length (List.filter_congr fun pre _ => ?_)
  rw [Janitor.isOrphaned, hgone, Bool.and_true]

/-- Against a server without runs, with five prefixes considered, the breaker stops the sweep
exactly when the prefixes without a marker are too many: it does not count the held ones as
orphans but does count them as considered. -/
theorem emptyServer_stops_iff (hempty : ∀ id, w.mlflow.runs id = none)
    (hfive : minScannedForFraction ≤ j.consideredCount (w.s3 j.bucket.name))
    {r : Except PyExc SweepReport}
    (h : Exec (Serves (Answers fun _ => none)) (j.sweep true) w tr r w') :
    ((∃ e, r = .error e ∧ e.isJanitorAbort = true) ∧ w' = w) ↔
      j.Exceeds (j.consideredCount (w.s3 j.bucket.name))
        (j.unheldCount (w.s3 j.bucket.name)) := by
  have htrip : j.ratioTripped (j.plan w) = true ↔
      j.Exceeds (j.consideredCount (w.s3 j.bucket.name))
        (j.unheldCount (w.s3 j.bucket.name)) := by
    rw [ratioTripped_plan, Janitor.BreakerTrips, orphanCount_of_empty hempty]
    exact and_iff_right hfive
  rw [← htrip]
  rcases exec_sweep_ask (fun _ _ hl => hl) h with ⟨hw, ⟨hl, -⟩ | ⟨ht, hr⟩⟩ | ⟨ht, removed, -, hP⟩
  · exact absurd (listsOk_answers _) hl
  · exact iff_of_true ⟨hr, hw⟩ ht
  · refine iff_of_false ?_ (by simp [ht])
    rintro ⟨⟨e, hr, he⟩, -⟩
    rw [hP.noAbort e hr] at he
    cases he

/-- A sweep aborts exactly when the canary or the query for a considered prefix is not answered
authoritatively or the breaker trips, and an abort leaves everything as it was. -/
theorem sweep_aborts_iff (refusal : Str → Option ServiceError) {r : Except PyExc SweepReport}
    (h : Exec (Serves (Answers refusal)) (j.sweep true) w tr r w') :
    ((∃ e, r = .error e ∧ e.isJanitorAbort = true) ↔
      isUnanswered (w.askWith refusal) canaryRunId = true ∨
      (∃ pre ∈ (w.s3 j.bucket.name).runPrefixes,
        j.isConsidered (w.s3 j.bucket.name) pre = true ∧
        isUnanswered (w.askWith refusal) (runIdOf pre) = true) ∨
      j.BreakerTrips (w.s3 j.bucket.name) (w.askWith refusal)) ∧
    ((∃ e, r = .error e ∧ e.isJanitorAbort = true) → w' = w) := by
  rcases exec_sweep (oracle_answers refusal w) h with ⟨rfl, hr⟩ | ⟨v, hc, hv, ht, removed, -, hP⟩
  · refine ⟨?_, fun _ => rfl⟩
    rcases hr with ⟨hl, -⟩ | ⟨e, hs, rfl⟩ | ⟨rep, hs, ht, rfl⟩
    · exact absurd (listsOk_answers refusal) hl
    · rcases survey_cases j (w'.s3 j.bucket.name) (w'.askWith refusal) with
        ⟨v, -, -, hok⟩ | ⟨hfail, e', he', hab⟩
      · cases hok.symm.trans hs
      · obtain rfl := Except.error.inj (he'.symm.trans hs)
        refine iff_of_true ⟨e', rfl, hab⟩ ?_
        rcases hfail with hfail | ⟨pre, hpre, hj⟩
        · exact .inl (checkCanary_ne_ok.1 hfail)
        · exact .inr (.inl ⟨pre, hpre, judge_error_iff.1 hj⟩)
    · rcases survey_cases j (w'.s3 j.bucket.name) (w'.askWith refusal) with
        ⟨v, -, hv, hok⟩ | ⟨-, e', he', -⟩
      · obtain rfl := Except.ok.inj (hok.symm.trans hs)
        exact iff_of_true ⟨_, rfl, rfl⟩ (.inr (.inr ((ratioTripped_report hv).1 ht)))
      · cases he'.symm.trans hs
  · have hno : ¬ ∃ e, r = .error e ∧ e.isJanitorAbort = true := by
      rintro ⟨e, hr, he⟩
      rw [hP.noAbort e hr] at he
      cases he
    refine ⟨iff_of_false hno ?_, fun hx => absurd hx hno⟩
    rintro (hu | ⟨pre, hpre, hq⟩ | hb)
    · exact checkCanary_ne_ok.2 hu hc
    · obtain ⟨e, he⟩ := judge_error_iff.2 hq
      cases he.symm.trans (hv pre hpre)
    · rw [(ratioTripped_report hv).2 hb] at ht
      cases ht

/-- Half of the considered prefixes may be orphans, and nothing counts as recent. -/
def sampleJanitor : Janitor := ⟨sampleBucket, 0, 0, .finite (1 / 2), 0⟩

/-- Refuse the given run queries, serve everything else. -/
def refusing (refusal : Str → Option ServiceError) : Call → Fate
  | .getRun id => (refusal id).elim .ok .fail
  | _ => .ok

theorem answers_refusing (refusal : Str → Option ServiceError) (w : World) (c : Call) :
    Answers refusal c (serve (refusing refusal) w c).1 := by
  cases c with
  | getRun id =>
    simp only [Answers, serve, refusing]
    cases refusal id <;> rfl
  | listCommonPrefixes b pre => rfl
  | listObjects b pre => rfl
  | _ => trivial

/-- Five prefixes, all but the first of them held. -/
def mostlyHeld : World :=
  .of ['b'] ((sampleRunPrefix '0' ++ ['x']) :: ['1', '2', '3', '4'].flatMap fun c =>
    [sampleRunPrefix c ++ retentionMarker, sampleRunPrefix c ++ ['x']]) [] []

/-- Five prefixes, two of them held. -/
def fewHeld : World :=
  .of ['b'] (['0', '1', '2', '3', '4'].map (fun c => sampleRunPrefix c ++ ['x']) ++
    ['3', '4'].map fun c => sampleRunPrefix c ++ retentionMarker) [] []

/-- Three of five are more than a half: the sweep aborts. -/
theorem emptyServer_stops_fewHeld :
    (∃ e, (simulate (refusing fun _ => none) (sampleJanitor.sweep true) fewHeld).2.1 = .error e ∧
      e.isJanitorAbort = true) ∧
    (simulate (refusing fun _ => none) (sampleJanitor.sweep true) fewHeld).2.2 = fewHeld :=
  (emptyServer_stops_iff (fun _ => rfl) (by decide +kernel)
    (exec_simulate _ _ (answers_refusing fun _ => none))).2 (by decide +kernel)

/-- The server has no run, five prefixes are considered and one of them is not held, and yet the
sweep deletes its object. -/
theorem emptyServer_purges_unheld :
    ((mostlyHeld.s3 ['b']).keys.all fun k =>
      ['0', '1', '2', '3', '4'].any fun c => (sampleRunPrefix c).isPrefixOf k) = true ∧
    (∀ id, mostlyHeld.mlflow.runs id = none) ∧
    sampleJanitor.consideredCount (mostlyHeld.s3 ['b']) = 5 ∧
    sampleJanitor.unheldCount (mostlyHeld.s3 ['b']) = 1 ∧
    sampleRunPrefix '0' ++ ['x'] ∈ mostlyHeld.s3 ['b'] ∧
    ∃ tr r w', Exec (Serves (Answers fun _ => none)) (sampleJanitor.sweep true) mostlyHeld tr r w' ∧
      sampleRunPrefix '0' ++ ['x'] ∉ w'.s3 ['b'] := by
  refine ⟨by decide +kernel, fun _ => rfl, by decide +kernel, by decide +kernel, by decide +kernel,
    ?_⟩
  obtain ⟨tr, r, w', h, hk⟩ := exists_removing (j := sampleJanitor) (w := mostlyHeld)
    (p := sampleRunPrefix '0') (k := sampleRunPrefix '0' ++ ['x']) (by decide +kernel)
    (by decide +kernel) (by decide +kernel) (by decide +kernel)
  exact ⟨tr, r, w', h.mono fun _ _ _ _ _ => Serves.mono reliable_answers, hk⟩

/-- MLflow goes away after the canary, at the second of two prefixes. -/
def brokenOff (id : Str) : Option ServiceError :=
  if id = sampleRunId '1' then some unavailable else none

def twoOrphans : World :=
  .of ['b'] [runPrefix ['a'] (sampleRunId '0') ++ ['x'], runPrefix ['a'] (sampleRunId '1') ++ ['x']]
    [] []

theorem sweep_aborts_brokenOff :
    (∃ e, (simulate (refusing brokenOff) (sampleJanitor.sweep true) twoOrphans).2.1 = .error e ∧
      e.isJanitorAbort = true) ∧
    (simulate (refusing brokenOff) (sampleJanitor.sweep true) twoOrphans).2.2 = twoOrphans := by
  obtain ⟨hiff, hsame⟩ := sweep_aborts_iff brokenOff
    (exec_simulate (sampleJanitor.sweep true) twoOrphans (answers_refusing brokenOff))
  have hlisted : sampleRunPrefix '1' ∈ (twoOrphans.s3 ['b']).runPrefixes := by decide +kernel
  have hconsidered : sampleJanitor.isConsidered (twoOrphans.s3 ['b']) (sampleRunPrefix '1') =
      true := by decide +kernel
  have hquery : isUnanswered (twoOrphans.askWith brokenOff) (runIdOf (sampleRunPrefix '1')) =
      true := by decide +kernel
  have haborts := hiff.2 (.inr (.inl ⟨_, hlisted, hconsidered, hquery⟩))
  exact ⟨haborts, hsame haborts⟩

end Accel.Model
