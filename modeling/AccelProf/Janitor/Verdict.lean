import AccelProf.Spec.Deletion
import AccelProf.Model.RunPrefix

/-! The decision the collector takes for one prefix of a bucket that stands still, and the report
the decisions add up to. -/

namespace Accel.Model
open Data Program Prog

/-- The decisions in the order the collector tries them. -/
inductive Verdict where
  | recent
  | foreign
  | stale
  | running
  | finished
  | held
  | orphan
  deriving DecidableEq, Inhabited

def Verdict.ofDisposition (d : Disposition) (stale held : Bool) : Verdict :=
  match d with
  | .running => if stale then .stale else .running
  | .keep => .finished
  | .orphan => if held then .held else .orphan

/-- The `<seg>/<seg>/` prefixes of a bucket, each once. -/
def Bucket.runPrefixes (m : Bucket) : List Key := twoLevel '/' m.keys

def Bucket.marked (m : Bucket) (pre : Key) : Bool :=
  (m.under pre).any fun e => e.1 == scanMarkerKey pre

theorem Bucket.mem_runPrefixes {m : Bucket} {pre : Key} :
    pre ∈ m.runPrefixes ↔ IsTwoField '/' pre ∧ ∃ k ∈ m, pre <+: k := mem_twoLevel

theorem Bucket.runPrefixes_nodup (m : Bucket) : m.runPrefixes.Nodup := nodup_twoLevel _

theorem Bucket.marked_iff {m : Bucket} {a b : Str} (hb : '/' ∉ b) (hne : b ≠ []) :
    m.marked (runPrefix a b) = true ↔ runPrefix a b ++ retentionMarker ∈ m := by
  rw [Bucket.marked, List.any_eq_true, scanMarkerKey_runPrefix hb hne]
  simp only [beq_iff_eq]
  rw [← List.mem_map (f := Prod.fst), Bucket.mem_under_keys]
  exact and_iff_left (List.prefix_append _ _)

/-- What one scan of `pre` returns. -/
def Bucket.scanOf (m : Bucket) (pre : Key) : PrefixScan :=
  ((m.under pre).map listed).foldl (scanStep pre) ⟨none, false, true⟩

theorem scan_empty (pre : Key) (xs : List Listed) (scan : PrefixScan) :
    (xs.foldl (scanStep pre) scan).empty = (scan.empty && xs.isEmpty) := by
  induction xs generalizing scan with
  | nil => simp
  | cons x xs ih => simp [ih, scanStep]

theorem scan_hasMarker (pre : Key) (xs : List Listed) (scan : PrefixScan) :
    (xs.foldl (scanStep pre) scan).hasMarker =
      (scan.hasMarker || xs.any fun x => x.key == scanMarkerKey pre) := by
  induction xs generalizing scan with
  | nil => simp
  | cons x xs ih => simp [ih, scanStep, Bool.or_assoc]

theorem Bucket.scanOf_hasMarker (m : Bucket) (pre : Key) :
    (m.scanOf pre).hasMarker = m.marked pre := by
  rw [Bucket.scanOf, scan_hasMarker, Bool.false_or, List.any_map]
  rfl

theorem Bucket.scanOf_empty {m : Bucket} {pre k : Key} (hk : k ∈ m) (hp : pre <+: k) :
    (m.scanOf pre).empty = false := by
  have h : (m.under pre).map listed ≠ [] := by
    intro h
    have := Bucket.mem_under_keys.2 ⟨hk, hp⟩
    simp [List.map_eq_nil_iff.1 h] at this
  rw [Bucket.scanOf, scan_empty]
  simpa using h

namespace Janitor
variable (j : Janitor)

/-- Some object under the prefix is younger than the grace period. -/
def recent (m : Bucket) (pre : Key) : Bool :=
  (m.under pre).any fun e => e.2.lastModified.any fun t => j.now - t < j.minAge

theorem recent_eq_false {m : Bucket} {pre : Key} : j.recent m pre = false ↔
    ∀ e ∈ m.under pre, ∀ t, e.2.lastModified = some t → ¬ j.now - t < j.minAge := by
  simp [recent, Option.any_eq_false]

/-- The prefix has a dated object, and every dated one is past the stale window. -/
def abandoned (m : Bucket) (pre : Key) : Bool :=
  ((m.under pre).any fun e => e.2.lastModified.isSome) &&
    (m.under pre).all fun e => e.2.lastModified.all fun t => j.staleRunning < j.now - t

theorem isRecent_scanStep (pre : Key) (scan : PrefixScan) (x : Listed) :
    j.isRecent (scanStep pre scan x) =
      (j.isRecent scan || x.lastModified.any fun t => j.now - t < j.minAge) := by
  cases hx : x.lastModified with
  | none => cases hs : scan.newestMtime <;> simp [isRecent, scanStep, hx, hs]
  | some ts =>
    cases hs : scan.newestMtime with
    | none => simp [isRecent, scanStep, hx, hs]
    | some newest =>
      simp only [isRecent, scanStep, hx, hs, Option.any_some]
      split_ifs with h <;> rw [Bool.eq_iff_iff] <;>
        simp only [Option.any_some, Bool.or_eq_true, decide_eq_true_eq]
      · exact ⟨.inr, fun h' => h'.elim (fun h' => by linarith) id⟩
      · exact ⟨.inl, fun h' => h'.elim id fun h' => by linarith⟩

theorem isRecent_scan (pre : Key) (xs : List Listed) (scan : PrefixScan) :
    j.isRecent (xs.foldl (scanStep pre) scan) = (j.isRecent scan ||
      xs.any fun x => x.lastModified.any fun t => j.now - t < j.minAge) := by
  induction xs generalizing scan with
  | nil => simp
  | cons x xs ih => simp [ih, isRecent_scanStep, Bool.or_assoc]

theorem isRecent_scanOf (m : Bucket) (pre : Key) : j.isRecent (m.scanOf pre) = j.recent m pre := by
  rw [Bucket.scanOf, isRecent_scan, List.any_map]
  rfl

theorem newest_scan (pre : Key) (xs : List Listed) (scan : PrefixScan) :
    (xs.foldl (scanStep pre) scan).newestMtime.isSome =
      (scan.newestMtime.isSome || xs.any fun x => x.lastModified.isSome) ∧
    ((xs.foldl (scanStep pre) scan).newestMtime.all fun t => j.staleRunning < j.now - t) =
      ((scan.newestMtime.all fun t => j.staleRunning < j.now - t) &&
        xs.all fun x => x.lastModified.all fun t => j.staleRunning < j.now - t) := by
  induction xs generalizing scan with
  | nil => simp
  | cons x xs ih =>
    have hstep : (scanStep pre scan x).newestMtime.isSome =
          (scan.newestMtime.isSome || x.lastModified.isSome) ∧
        ((scanStep pre scan x).newestMtime.all fun t => j.staleRunning < j.now - t) =
          ((scan.newestMtime.all fun t => j.staleRunning < j.now - t) &&
            x.lastModified.all fun t => j.staleRunning < j.now - t) := by
      cases hx : x.lastModified with
      | none => cases hs : scan.newestMtime <;> simp [scanStep, hx, hs]
      | some ts =>
        cases hs : scan.newestMtime with
        | none => simp [scanStep, hx, hs]
        | some newest =>
          simp only [scanStep, hx, hs]
          split_ifs with h <;> refine ⟨rfl, ?_⟩ <;> rw [Bool.eq_iff_iff] <;>
            simp only [Option.all_some, Bool.and_eq_true, decide_eq_true_eq]
          · exact ⟨fun h' => ⟨by linarith, h'⟩, And.right⟩
          · exact ⟨fun h' => ⟨h', by linarith⟩, And.left⟩
    simp only [List.foldl_cons, ih, hstep.1, hstep.2, List.any_cons, List.all_cons, Bool.or_assoc,
      Bool.and_assoc, and_self]

theorem isStale_scanOf (m : Bucket) (pre : Key) : j.isStale (m.scanOf pre) = j.abandoned m pre := by
  have hsplit : ∀ o : Option Seconds, (o.any fun t => j.staleRunning < j.now - t) =
      (o.isSome && o.all fun t => j.staleRunning < j.now - t) := fun o => by cases o <;> simp
  obtain ⟨h₁, h₂⟩ := j.newest_scan pre ((m.under pre).map listed) ⟨none, false, true⟩
  rw [isStale, hsplit, Bucket.scanOf, h₁, h₂, List.any_map, List.all_map]
  rfl

/-- The decision for one prefix, given what MLflow makes of its run id. -/
def judge (m : Bucket) (tell : Str → Except PyExc Disposition) (pre : Key) :
    Except PyExc Verdict :=
  if j.recent m pre then .ok .recent
  else if !matchesRunId (runIdOf pre) then .ok .foreign
  else (tell (runIdOf pre)).map fun d => Verdict.ofDisposition d (j.abandoned m pre) (m.marked pre)

/-- The decision when MLflow's answer is a record or an authoritative absence. -/
def verdict (m : Bucket) (runs : Str → Option Run) (pre : Key) : Verdict :=
  if j.recent m pre then .recent
  else if !matchesRunId (runIdOf pre) then .foreign
  else Verdict.ofDisposition
    ((runs (runIdOf pre)).elim .orphan fun run => dispositionOf (toRef (runIdOf pre, run)))
    (j.abandoned m pre) (m.marked pre)

def uris (pres : List Key) : List Str := pres.map (s3Uri j.bucket.name)

/-- The report of a whole survey whose decisions are `v`. -/
def report (m : Bucket) (v : Key → Verdict) : SweepReport where
  scanned := m.runPrefixes.length
  orphans := j.uris (m.runPrefixes.filter (v · = .orphan))
  kept := j.uris (m.runPrefixes.filter (v · = .held))
  skippedRecent := j.uris (m.runPrefixes.filter (v · = .recent))
  skippedForeign := j.uris (m.runPrefixes.filter (v · = .foreign))
  staleRunning := j.uris (m.runPrefixes.filter (v · = .stale))

end Janitor

def SweepReport.record (report : SweepReport) (uri : Str) : Verdict → SweepReport
  | .recent => { report with skippedRecent := report.skippedRecent ++ [uri] }
  | .foreign => { report with skippedForeign := report.skippedForeign ++ [uri] }
  | .stale => { report with staleRunning := report.staleRunning ++ [uri] }
  | .running => report
  | .finished => report
  | .held => { report with kept := report.kept ++ [uri] }
  | .orphan => { report with orphans := report.orphans ++ [uri] }

/-- MLflow's answer for a run id, as `_classify` reads it. -/
def tellOf (ask : Str → Except PyExc (Str × Run)) (id : Str) : Except PyExc Disposition :=
  match ask id with
  | .ok run => .ok (dispositionOf (toRef run))
  | .error e => if e.isNotFound then .ok .orphan else .error (.janitorQuery id e)

def checkCanary (ask : Str → Except PyExc (Str × Run)) : Except PyExc Unit :=
  match ask canaryRunId with
  | .ok _ => .ok ()
  | .error e => if e.isNotFound then .ok () else .error (.janitorCanary e)

/-- `find_orphans` on a bucket that stands still, as a function of the bucket and the oracle. -/
def Janitor.survey (j : Janitor) (m : Bucket) (ask : Str → Except PyExc (Str × Run)) :
    Except PyExc SweepReport :=
  match checkCanary ask with
  | .error e => .error e
  | .ok _ => m.runPrefixes.foldlM (fun (report : SweepReport) pre =>
      (j.judge m (tellOf ask) pre).map
        (SweepReport.record { report with scanned := report.scanned + 1 }
          (s3Uri j.bucket.name pre)))
      {}

theorem record_foldl (uri : Key → Str) (v : Key → Verdict) (pres : List Key) (r : SweepReport) :
    pres.foldl (fun r pre => SweepReport.record { r with scanned := r.scanned + 1 } (uri pre)
      (v pre)) r =
      { r with
        scanned := r.scanned + pres.length
        orphans := r.orphans ++ (pres.filter (v · = .orphan)).map uri
        kept := r.kept ++ (pres.filter (v · = .held)).map uri
        skippedRecent := r.skippedRecent ++ (pres.filter (v · = .recent)).map uri
        skippedForeign := r.skippedForeign ++ (pres.filter (v · = .foreign)).map uri
        staleRunning := r.staleRunning ++ (pres.filter (v · = .stale)).map uri } := by
  induction pres generalizing r with
  | nil => simp
  | cons pre pres ih =>
    rw [List.foldl_cons, ih]
    cases hv : v pre <;> simp [SweepReport.record, hv] <;> omega

section Fold
variable {α β γ : Type} {g : α → Except PyExc γ} {h : β → α → γ → β}

theorem foldlM_map_ok {v : α → γ} {xs : List α} (hv : ∀ x ∈ xs, g x = .ok (v x)) (b : β) :
    xs.foldlM (fun b x => (g x).map (h b x)) b = .ok (xs.foldl (fun b x => h b x (v x)) b) := by
  induction xs generalizing b with
  | nil => rfl
  | cons x xs ih =>
    rw [List.foldlM_cons, hv x (by simp)]
    exact ih (fun y hy => hv y (by simp [hy])) _

theorem foldlM_map_error {xs : List α} (hx : ∃ x ∈ xs, ∃ e, g x = .error e) (b : β) :
    ∃ x ∈ xs, ∃ e, g x = .error e ∧ xs.foldlM (fun b x => (g x).map (h b x)) b = .error e := by
  induction xs generalizing b with
  | nil => simp at hx
  | cons x xs ih =>
    rw [List.foldlM_cons]
    cases hg : g x with
    | error e => exact ⟨x, by simp, e, hg, rfl⟩
    | ok c =>
      obtain ⟨y, hy, e, he, hf⟩ := ih (by
        obtain ⟨y, hy, e, he⟩ := hx
        rcases List.mem_cons.1 hy with rfl | hy
        · simp [hg] at he
        · exact ⟨y, hy, e, he⟩) (h b x c)
      exact ⟨y, by simp [hy], e, he, hf⟩

end Fold

variable {j : Janitor} {m : Bucket} {ask : Str → Except PyExc (Str × Run)}

theorem survey_ok {v : Key → Verdict} (hc : checkCanary ask = .ok ())
    (hv : ∀ pre ∈ m.runPrefixes, j.judge m (tellOf ask) pre = .ok (v pre)) :
    j.survey m ask = .ok (j.report m v) := by
  have hs : j.survey m ask = .ok (m.runPrefixes.foldl (fun (r : SweepReport) pre =>
      SweepReport.record { r with scanned := r.scanned + 1 } (s3Uri j.bucket.name pre) (v pre))
        {}) := by
    rw [Janitor.survey, hc]
    exact foldlM_map_ok hv _
  rw [hs, record_foldl]
  simp [Janitor.report, Janitor.uris]

/-- A survey ends in a report or in an abort, and in an abort exactly when a query it makes is not
answered authoritatively. -/
theorem survey_cases (j : Janitor) (m : Bucket) (ask : Str → Except PyExc (Str × Run)) :
    (∃ v : Key → Verdict, checkCanary ask = .ok () ∧
      (∀ pre ∈ m.runPrefixes, j.judge m (tellOf ask) pre = .ok (v pre)) ∧
      j.survey m ask = .ok (j.report m v)) ∨
    ((checkCanary ask ≠ .ok () ∨
        ∃ pre ∈ m.runPrefixes, ∃ e, j.judge m (tellOf ask) pre = .error e) ∧
      ∃ e, j.survey m ask = .error e ∧ e.isJanitorAbort = true) := by
  cases hc : checkCanary ask with
  | error e =>
    refine .inr ⟨.inl (by simp), e, by rw [Janitor.survey, hc], ?_⟩
    unfold checkCanary at hc
    split at hc
    · cases hc
    · split at hc
      · cases hc
      · cases hc
        rfl
  | ok u =>
    by_cases hx : ∃ pre ∈ m.runPrefixes, ∃ e, j.judge m (tellOf ask) pre = .error e
    · obtain ⟨pre, hpre, e, he, hf⟩ := foldlM_map_error (h := fun (r : SweepReport) pre v =>
        SweepReport.record { r with scanned := r.scanned + 1 } (s3Uri j.bucket.name pre) v) hx {}
      refine .inr ⟨.inr hx, e, by rw [Janitor.survey, hc]; exact hf, ?_⟩
      unfold Janitor.judge at he
      split_ifs at he
      cases ht : tellOf ask (runIdOf pre) with
      | ok d => simp [ht, Except.map] at he
      | error e' =>
        rw [ht] at he
        cases he
        unfold tellOf at ht
        split at ht
        · cases ht
        · split at ht
          · cases ht
          · cases ht
            rfl
    · have hall : ∀ pre ∈ m.runPrefixes, ∃ v, j.judge m (tellOf ask) pre = .ok v := by
        intro pre hpre
        cases hj : j.judge m (tellOf ask) pre with
        | ok v => exact ⟨v, rfl⟩
        | error e => exact absurd ⟨pre, hpre, e, hj⟩ hx
      -- every query is answered, so each prefix has a verdict
      choose! v hv using hall
      exact .inl ⟨v, rfl, hv, survey_ok hc hv⟩

end Accel.Model
