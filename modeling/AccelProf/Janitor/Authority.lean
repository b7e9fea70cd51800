import AccelProf.Janitor.Purge

/-! Sweeps against an MLflow that answers every query by a record or an authoritative absence, and
the calls a sweep can make. -/

namespace Accel.Model
open Data Program Prog

variable {F : Call → Fate → Prop} {w w' : World} {tr : List (Step Call Ans Fate World)}
  {j : Janitor}

/-- MLflow answers every run query; of S3 nothing is promised. -/
def Authoritative : Call → Fate → Prop
  | .getRun _, l => l = .ok
  | _, _ => True

/-- S3 serves its listings, and MLflow refuses exactly the queries that `refusal` gives an
exception for. Deletes may meet any fate. -/
def Answers (refusal : Str → Option ServiceError) : Call → Fate → Prop
  | .getRun id, l => l = (refusal id).elim .ok .fail
  | .listCommonPrefixes .., l => l = .ok
  | .listObjects .., l => l = .ok
  | _, _ => True

/-- What MLflow answers about a run when it is reachable. -/
def World.ask (w : World) (id : Str) : Except PyExc (Str × Run) :=
  match w.mlflow.runs id with
  | some run => .ok (id, run)
  | none => .error runMissing

def World.askWith (w : World) (refusal : Str → Option ServiceError) (id : Str) :
    Except PyExc (Str × Run) :=
  (refusal id).elim (w.ask id) fun e => .error (.service e)

theorem oracle_ask (hF : ∀ id l, F (.getRun id) l → l = .ok) (w : World) : Oracle F w w.ask := by
  intro id l a w' hs
  obtain rfl := hF id l hs.1
  exact hs.2

theorem oracle_answers (refusal : Str → Option ServiceError) (w : World) :
    Oracle (Answers refusal) w (w.askWith refusal) := by
  intro id l a w' hs
  obtain ⟨hl, hs⟩ := hs
  rw [World.askWith]
  cases hr : refusal id with
  | none =>
    obtain rfl : l = .ok := by simpa [Answers, hr] using hl
    exact hs
  | some e =>
    obtain rfl : l = .fail e := by simpa [Answers, hr] using hl
    exact ⟨hs.2, hs.1⟩

theorem listsOk_answers (refusal : Str → Option ServiceError) : ListsOk (Answers refusal) :=
  ⟨fun _ _ _ h => h, fun _ _ _ h => h⟩

theorem tellOf_ask (w : World) (id : Str) : tellOf w.ask id = .ok
    ((w.mlflow.runs id).elim .orphan fun run => dispositionOf (toRef (id, run))) := by
  rw [tellOf, World.ask]
  cases w.mlflow.runs id <;> rfl

theorem checkCanary_ask (w : World) : checkCanary w.ask = .ok () := by
  rw [checkCanary, World.ask]
  cases w.mlflow.runs canaryRunId <;> rfl

theorem judge_ask (w : World) (m : Bucket) (pre : Key) :
    j.judge m (tellOf w.ask) pre = .ok (j.verdict m w.mlflow.runs pre) := by
  rw [Janitor.judge, Janitor.verdict, tellOf_ask]
  split_ifs <;> rfl

namespace Janitor
variable (j)

/-- The prefixes a sweep of `w` finds orphaned, in the order it purges them. -/
def orphanPrefixes (w : World) : List Key :=
  (w.s3 j.bucket.name).runPrefixes.filter (j.verdict (w.s3 j.bucket.name) w.mlflow.runs · = .orphan)

/-- The report of `find_orphans` in `w`. -/
def plan (w : World) : SweepReport :=
  j.report (w.s3 j.bucket.name) (j.verdict (w.s3 j.bucket.name) w.mlflow.runs)

end Janitor

theorem survey_ask (w : World) : j.survey (w.s3 j.bucket.name) w.ask = .ok (j.plan w) :=
  survey_ok (checkCanary_ask w) fun _ _ => judge_ask w _ _

theorem mem_orphanPrefixes {p : Key} : p ∈ j.orphanPrefixes w ↔
    p ∈ (w.s3 j.bucket.name).runPrefixes ∧
      j.verdict (w.s3 j.bucket.name) w.mlflow.runs p = .orphan := by
  simp [Janitor.orphanPrefixes]

theorem plan_orphans : (j.plan w).orphans = j.uris (j.orphanPrefixes w) := rfl

/-- `exec_sweep` with every verdict read off the MLflow state. -/
theorem exec_sweep_ask (hF : ∀ id l, F (.getRun id) l → l = .ok) {r : Except PyExc SweepReport}
    (h : Exec (Serves F) (j.sweep true) w tr r w') :
    (w' = w ∧ ((¬ ListsOk F ∧ ∃ e, r = .error (.service e)) ∨
      (j.ratioTripped (j.plan w) = true ∧ ∃ e, r = .error e ∧ e.isJanitorAbort = true))) ∨
    (j.ratioTripped (j.plan w) = false ∧ ∃ removed, w' = w.deleteKeys j.bucket.name removed ∧
      Purged F j (w.s3 j.bucket.name) (j.orphanPrefixes w) (j.plan w) removed r) := by
  rcases exec_sweep (oracle_ask hF w) h with ⟨hw, hr⟩ | ⟨v, -, hv, ht, removed, hw, hP⟩
  · refine .inl ⟨hw, ?_⟩
    rcases hr with hr | ⟨e, hs, -⟩ | ⟨rep, hs, ht, hr⟩
    · exact .inl hr
    · rw [survey_ask] at hs
      cases hs
    · rw [survey_ask] at hs
      obtain rfl := Except.ok.inj hs
      exact .inr ⟨ht, _, hr, rfl⟩
  · have hvv : ∀ pre ∈ (w.s3 j.bucket.name).runPrefixes,
        v pre = j.verdict (w.s3 j.bucket.name) w.mlflow.runs pre := fun pre hpre =>
      Except.ok.inj ((hv pre hpre).symm.trans (judge_ask w _ _))
    have hfilter : ∀ d : Verdict, (w.s3 j.bucket.name).runPrefixes.filter (v · = d) =
        (w.s3 j.bucket.name).runPrefixes.filter
          (j.verdict (w.s3 j.bucket.name) w.mlflow.runs · = d) := fun d =>
      List.filter_congr fun pre hpre => by rw [hvv pre hpre]
    have hrep : j.report (w.s3 j.bucket.name) v = j.plan w := by
      simp only [Janitor.plan, Janitor.report, hfilter]
    rw [hrep] at ht hP
    rw [hfilter] at hP
    exact .inr ⟨ht, removed, hw, hP⟩

section Uses

def SweepCall : Call → Prop
  | .listCommonPrefixes .. => True
  | .listObjects .. => True
  | .deleteObjects .. => True
  | .getRun _ => True
  | _ => False

theorem deleteCall_sweepCall (c : Call) (h : DeleteCall c) : SweepCall c := by
  cases c <;> trivial

theorem uses_resolveRun (id : Str) : (resolveRun id).Uses SweepCall :=
  (uses_request trivial).bind fun _ => trivial

theorem uses_commonPrefixes (pre : Key) : (j.commonPrefixes pre).Uses SweepCall :=
  (uses_request trivial).bind fun _ => trivial

theorem uses_classify (id : Str) : (classify id).Uses SweepCall := by
  refine (uses_resolveRun _).attempt.bind fun out => ?_
  cases out with
  | ok ref => trivial
  | error e => exact uses_ite trivial trivial

theorem uses_assertTrackingReachable : assertTrackingReachable.Uses SweepCall := by
  refine (uses_resolveRun _).attempt.bind fun out => ?_
  cases out with
  | ok ref => trivial
  | error e => exact uses_ite trivial trivial

theorem uses_examine (report : SweepReport) (pre : Key) :
    (j.examine report pre).Uses SweepCall := by
  refine Uses.bind ((uses_request trivial).bind fun _ => trivial) fun scan => ?_
  refine uses_ite trivial (uses_ite trivial (uses_ite trivial ?_))
  refine (uses_classify _).bind fun d => ?_
  cases d with
  | running => exact uses_ite trivial trivial
  | keep => trivial
  | orphan => exact uses_ite trivial trivial

theorem uses_findOrphans : j.findOrphans.Uses SweepCall := by
  refine uses_assertTrackingReachable.bind fun _ => Uses.bind ?_ fun _ =>
    uses_foldlM (fun _ _ _ => uses_examine _ _) _
  refine (uses_commonPrefixes _).bind fun _ => uses_foldlM (fun _ _ _ => ?_) _
  exact (uses_commonPrefixes _).bind fun _ => trivial

theorem uses_sweep (apply : Bool) : (j.sweep apply).Uses SweepCall := by
  refine uses_findOrphans.bind fun _ => uses_ite trivial (uses_ite trivial ?_)
  refine uses_foldlM (fun _ uri _ => ?_) _
  exact ((uses_deletePrefix uri).mono deleteCall_sweepCall).bind fun _ => trivial

/-- Every call of a sweep can succeed. -/
theorem reliable_sweepCall (w : World) (c : Call) (hc : SweepCall c) :
    ∃ l a w', Serves Reliable w c l a w' := by
  cases c with
  | listCommonPrefixes b pre => exact ⟨.ok, _, w, rfl, rfl, .last _, rfl, rfl⟩
  | listObjects b pre => exact ⟨.ok, _, w, rfl, rfl, .last _, rfl, rfl⟩
  | deleteObjects b keys => exact ⟨.ok, _, _, rfl, rfl, rfl⟩
  | getRun id => exact ⟨.ok, _, w, rfl, rfl, rfl⟩
  | _ => exact hc.elim

theorem exists_sweep (j : Janitor) (apply : Bool) (w : World) :
    ∃ tr r w', Exec (Serves Reliable) (j.sweep apply) w tr r w' :=
  exec_exists (uses_sweep apply) reliable_sweepCall w

theorem listsOk_reliable : ListsOk Reliable := ⟨fun _ _ _ h => h, fun _ _ _ h => h⟩

theorem deletesOk_reliable : DeletesOk Reliable := fun _ _ _ h => h

theorem reliable_answers (c : Call) (l : Fate) (h : Reliable c l) :
    Answers (fun _ => none) c l := by
  cases c <;> first | exact h | trivial

theorem exists_purging (ht : j.ratioTripped (j.plan w) = false) : ∃ tr r removed,
    Exec (Serves Reliable) (j.sweep true) w tr r (w.deleteKeys j.bucket.name removed) ∧
      Purged Reliable j (w.s3 j.bucket.name) (j.orphanPrefixes w) (j.plan w) removed r := by
  obtain ⟨tr, r, w', h⟩ := exists_sweep j true w
  rcases exec_sweep_ask (fun _ _ hl => hl) h with ⟨-, ⟨hl, -⟩ | ⟨ht', -⟩⟩ | ⟨-, removed, rfl, hP⟩
  · exact absurd listsOk_reliable hl
  · cases ht.symm.trans ht'
  · exact ⟨tr, r, removed, h, hP⟩

/-- Everything under the URI of a reached orphan can go. -/
theorem exists_removing (ht : j.ratioTripped (j.plan w) = false) {p k : Key}
    (hp : p ∈ reached (j.orphanPrefixes w)) (hk : k ∈ w.s3 j.bucket.name) (hpk : uriKey p <+: k) :
    ∃ tr r w', Exec (Serves Reliable) (j.sweep true) w tr r w' ∧ k ∉ w'.s3 j.bucket.name := by
  obtain ⟨tr, r, removed, h, hP⟩ := exists_purging ht
  refine ⟨tr, r, _, h, ?_⟩
  rw [World.mem_deleteKeys]
  exact fun h => h.2 (hP.full listsOk_reliable deletesOk_reliable p hp k hk hpk)

end Uses

end Accel.Model
