import AccelProf.Janitor.Breaker

/-! Sweeps of buckets in the platform's shape: the report is the documented selection, and what a
purge leaves is exactly what is not under an orphan prefix. -/

namespace Accel.Model
open Data Program Prog

/-- A key with two slashes starts with an alias and a segment of the same charset. -/
def Bucket.WellShaped (m : Bucket) : Prop :=
  ∀ a b rest, '/' ∉ a → '/' ∉ b → runPrefix a b ++ rest ∈ m →
    a ≠ [] ∧ (∀ c ∈ a, isIdChar c = true) ∧ b ≠ [] ∧ ∀ c ∈ b, isIdChar c = true

/-- The run is active and has not ended. -/
def Mlflow.Live (m : Mlflow) (id : Str) : Prop := ∃ run, m.runs id = some run ∧
  run.lifecycleStage = .active ∧ (run.status = some .running ∨ run.status = some .scheduled)

def Mlflow.Finished (m : Mlflow) (id : Str) : Prop := ∃ run, m.runs id = some run ∧
  run.lifecycleStage = .active ∧ run.status = some .finished

namespace Janitor
variable (j : Janitor) (w : World)

def Young (p : Key) : Prop := ∃ e ∈ (w.s3 j.bucket.name).under p, ∃ t,
  e.2.lastModified = some t ∧ j.now - t < j.minAge

/-- The newest object under `p` is older than the stale window. -/
def Stale (p : Key) : Prop :=
  (∃ e ∈ (w.s3 j.bucket.name).under p, e.2.lastModified.isSome = true) ∧
    ∀ e ∈ (w.s3 j.bucket.name).under p, ∀ t, e.2.lastModified = some t → j.staleRunning < j.now - t

open Classical in
/-- The documented decision for run `b` under alias `a`. -/
noncomputable def documented (a b : Str) : Verdict :=
  if j.Young w (runPrefix a b) then .recent
  else if isRunId b = false then .foreign
  else if w.mlflow.Live b then if j.Stale w (runPrefix a b) then .stale else .running
  else if w.mlflow.Finished b then .finished
  else if runPrefix a b ++ retentionMarker ∈ w.s3 j.bucket.name then .held
  else .orphan

/-- The list has, once each, the URIs of the prefixes for which the decision is `d`. -/
def Selects (l : List Str) (d : Verdict) : Prop := l.Nodup ∧ ∀ u, u ∈ l ↔
  ∃ a b, '/' ∉ a ∧ '/' ∉ b ∧ (∃ k ∈ w.s3 j.bucket.name, runPrefix a b <+: k) ∧
    u = s3Uri j.bucket.name (runPrefix a b) ∧ j.documented w a b = d

structure Exact (rep : SweepReport) : Prop where
  scanned : rep.scanned = {p | IsTwoField '/' p ∧ ∃ k ∈ w.s3 j.bucket.name, p <+: k}.ncard
  orphans : j.Selects w rep.orphans .orphan
  kept : j.Selects w rep.kept .held
  skippedRecent : j.Selects w rep.skippedRecent .recent
  skippedForeign : j.Selects w rep.skippedForeign .foreign
  staleRunning : j.Selects w rep.staleRunning .stale
  disjoint : [rep.orphans, rep.kept, rep.skippedRecent, rep.skippedForeign,
    rep.staleRunning].Pairwise List.Disjoint

end Janitor

variable {j : Janitor} {w w' : World} {tr : List (Step Call Ans Fate World)} {a b : Str}

theorem matchesRunId_of_plain {s : Str} (h : ∀ c ∈ s, isIdChar c = true) :
    matchesRunId s = isRunId s := by
  rw [Bool.eq_iff_iff, matchesRunId_iff, or_iff_left_iff_imp]
  rintro ⟨t, rfl, -⟩
  exact absurd (h '\n' (by simp)) (by decide)

theorem recent_iff {p : Key} : j.recent (w.s3 j.bucket.name) p = true ↔ j.Young w p := by
  rw [← Bool.not_eq_false, Janitor.recent_eq_false, Janitor.Young]
  push Not
  rfl

theorem abandoned_iff {p : Key} : j.abandoned (w.s3 j.bucket.name) p = true ↔ j.Stale w p := by
  simp [Janitor.abandoned, Janitor.Stale, Option.all_eq_true]

theorem Bucket.WellShaped.segments {m : Bucket} (hm : m.WellShaped) (ha : '/' ∉ a) (hb : '/' ∉ b)
    (hk : ∃ k ∈ m, runPrefix a b <+: k) :
    a ≠ [] ∧ (∀ c ∈ a, isIdChar c = true) ∧ b ≠ [] ∧ ∀ c ∈ b, isIdChar c = true := by
  obtain ⟨k, hk, rest, rfl⟩ := hk
  exact hm a b rest ha hb hk

/-- What MLflow says of a run, in the words of the documentation. -/
theorem disposition_cases (w : World) (id : Str) :
    (w.mlflow.runs id).elim .orphan (fun run => dispositionOf (toRef (id, run))) = .running ∧
      w.mlflow.Live id ∨
    (w.mlflow.runs id).elim .orphan (fun run => dispositionOf (toRef (id, run))) = .keep ∧
      ¬ w.mlflow.Live id ∧ w.mlflow.Finished id ∨
    (w.mlflow.runs id).elim .orphan (fun run => dispositionOf (toRef (id, run))) = .orphan ∧
      ¬ w.mlflow.Live id ∧ ¬ w.mlflow.Finished id := by
  simp only [Mlflow.Live, Mlflow.Finished]
  cases w.mlflow.runs id with
  | none => simp
  | some run =>
    simp only [Option.elim_some, Option.some.injEq, exists_eq_left', dispositionOf,
      RunRef.isDeleted, RunRef.isFinished, toRef]
    obtain ⟨_, status, stage, _, _, _, _⟩ := run
    cases stage <;> rcases status with _ | _ | _ | _ | _ | _ | s <;> simp

theorem verdict_eq_documented (hm : (w.s3 j.bucket.name).WellShaped) (ha : '/' ∉ a) (hb : '/' ∉ b)
    (hk : ∃ k ∈ w.s3 j.bucket.name, runPrefix a b <+: k) :
    j.verdict (w.s3 j.bucket.name) w.mlflow.runs (runPrefix a b) = j.documented w a b := by
  obtain ⟨-, -, hne, hcs⟩ := hm.segments ha hb hk
  by_cases hy : j.Young w (runPrefix a b)
  · rw [Janitor.verdict, Janitor.documented, if_pos (recent_iff.2 hy), if_pos hy]
  rw [Janitor.verdict, Janitor.documented, if_neg (mt recent_iff.1 hy), if_neg hy,
    runIdOf_runPrefix ha hb, if_neg hne, matchesRunId_of_plain hcs]
  by_cases hid : isRunId b = false
  · rw [if_pos hid, if_pos (by simpa using hid)]
  rw [if_neg hid, if_neg (by simpa using hid)]
  rcases disposition_cases w b with ⟨hd, hl⟩ | ⟨hd, hl, hf⟩ | ⟨hd, hl, hf⟩
  · rw [hd, if_pos hl, Verdict.ofDisposition]
    by_cases hs : j.Stale w (runPrefix a b)
    · rw [if_pos hs, if_pos (abandoned_iff.2 hs)]
    · rw [if_neg hs, if_neg (mt abandoned_iff.1 hs)]
  · rw [hd, if_neg hl, if_pos hf, Verdict.ofDisposition]
  · rw [hd, if_neg hl, if_neg hf, Verdict.ofDisposition]
    by_cases hh : runPrefix a b ++ retentionMarker ∈ w.s3 j.bucket.name
    · rw [if_pos hh, if_pos ((Bucket.marked_iff hb hne).2 hh)]
    · rw [if_neg hh, if_neg (mt (Bucket.marked_iff hb hne).1 hh)]

theorem selects_plan (hm : (w.s3 j.bucket.name).WellShaped) (d : Verdict) :
    j.Selects w (j.uris ((w.s3 j.bucket.name).runPrefixes.filter
      (j.verdict (w.s3 j.bucket.name) w.mlflow.runs · = d))) d := by
  refine ⟨((Bucket.runPrefixes_nodup _).filter _).map (s3Uri_injective _), fun u => ?_⟩
  simp only [Janitor.uris, List.mem_map, List.mem_filter, Bucket.mem_runPrefixes, isTwoField_iff,
    decide_eq_true_eq]
  constructor
  · rintro ⟨p, ⟨⟨⟨a, b, ha, hb, rfl⟩, hk⟩, hv⟩, rfl⟩
    exact ⟨a, b, ha, hb, hk, rfl, by rw [← verdict_eq_documented hm ha hb hk, hv]⟩
  · rintro ⟨a, b, ha, hb, hk, rfl, hv⟩
    exact ⟨_, ⟨⟨⟨a, b, ha, hb, rfl⟩, hk⟩, by rw [verdict_eq_documented hm ha hb hk, hv]⟩, rfl⟩

theorem Janitor.Selects.disjoint {l l' : List Str} {d d' : Verdict} (h : j.Selects w l d)
    (h' : j.Selects w l' d') (hne : d ≠ d') : l.Disjoint l' := by
  intro u hu hu'
  obtain ⟨a, b, ha, hb, -, rfl, hd⟩ := (h.2 u).1 hu
  obtain ⟨a', b', ha', hb', -, he, hd'⟩ := (h'.2 _).1 hu'
  have := s3Uri_injective _ he
  obtain ⟨rfl, rfl, -⟩ := runPrefix_append_inj (s := []) (t := []) ha hb ha' hb' (by rw [this])
  exact hne (hd.symm.trans hd')

theorem exact_plan (hm : (w.s3 j.bucket.name).WellShaped) : j.Exact w (j.plan w) where
  scanned := by
    have h : {p | IsTwoField '/' p ∧ ∃ k ∈ w.s3 j.bucket.name, p <+: k} =
        ((w.s3 j.bucket.name).runPrefixes.toFinset : Set Key) := by
      ext p
      simp [Bucket.mem_runPrefixes]
    rw [h, Set.ncard_coe_finset, List.toFinset_card_of_nodup (Bucket.runPrefixes_nodup _)]
    rfl
  orphans := selects_plan hm .orphan
  kept := selects_plan hm .held
  skippedRecent := selects_plan hm .recent
  skippedForeign := selects_plan hm .foreign
  staleRunning := selects_plan hm .stale
  disjoint := by
    have h : ∀ d d', d ≠ d' → _ := fun d d' =>
      (selects_plan (j := j) hm d).disjoint (selects_plan hm d')
    refine .cons ?_ (.cons ?_ (.cons ?_ (.cons ?_ (.cons ?_ .nil))))
    all_goals simp only [List.mem_cons, List.not_mem_nil, or_false, forall_eq_or_imp, forall_eq,
      IsEmpty.forall_iff, implies_true]
    · exact ⟨h _ _ (by decide), h _ _ (by decide), h _ _ (by decide), h _ _ (by decide)⟩
    · exact ⟨h _ _ (by decide), h _ _ (by decide), h _ _ (by decide)⟩
    · exact ⟨h _ _ (by decide), h _ _ (by decide)⟩
    · exact h _ _ (by decide)

/-- On a bucket in the platform's shape, whatever the page splits: `find_orphans` and a dry run
report the documented selection and change nothing, and a sweep that returns has purged its
orphans and leaves exactly the objects under none of them. -/
theorem sweep_exact (j : Janitor) (w : World) (hm : (w.s3 j.bucket.name).WellShaped) :
    (∀ tr r w', Exec (Serves (Answers fun _ => none)) j.findOrphans w tr r w' →
      w' = w ∧ ∃ rep, r = .ok rep ∧ j.Exact w rep) ∧
    (∀ tr r w', Exec (Serves (Answers fun _ => none)) (j.sweep false) w tr r w' →
      w' = w ∧ ∃ rep, r = .ok rep ∧ j.Exact w rep) ∧
    ∀ tr rep w', Exec (Serves (Answers fun _ => none)) (j.sweep true) w tr (.ok rep) w' →
      j.Exact w rep ∧ rep.purged = rep.orphans ∧ w'.mlflow = w.mlflow ∧
      (∀ b, b ≠ j.bucket.name → w'.s3 b = w.s3 b) ∧
      ∀ e, e ∈ (w'.s3 j.bucket.name).entries ↔ e ∈ (w.s3 j.bucket.name).entries ∧
        ∀ p, s3Uri j.bucket.name p ∈ rep.orphans → ¬ p <+: e.1 := by
  have ho : Oracle (Answers fun _ => none) w w.ask := oracle_ask (fun _ _ hl => hl) w
  refine ⟨fun tr r w' h => ?_, fun tr r w' h => ?_, fun tr rep w' h => ?_⟩
  · obtain ⟨hw, hr | ⟨hl, -⟩⟩ := reads_findOrphans ho _ _ _ h
    · exact ⟨hw, _, hr.trans (survey_ask w), exact_plan hm⟩
    · exact absurd (listsOk_answers _) hl
  · obtain ⟨hw, hr | ⟨hl, -⟩⟩ := exec_dryRun ho h
    · exact ⟨hw, _, hr.trans (survey_ask w), exact_plan hm⟩
    · exact absurd (listsOk_answers _) hl
  · rcases exec_sweep_ask (fun _ _ hl => hl) h with
      ⟨-, ⟨hl, -⟩ | ⟨-, e, hr, -⟩⟩ | ⟨-, removed, rfl, hP⟩
    · exact absurd (listsOk_answers _) hl
    · cases hr
    obtain ⟨hnr, hall, n, rfl⟩ := hP.returned rep rfl
    have hx := exact_plan hm
    refine ⟨⟨hx.scanned, hx.orphans, hx.kept, hx.skippedRecent, hx.skippedForeign,
      hx.staleRunning, hx.disjoint⟩, rfl, rfl, fun b hb => World.setBucket_s3_ne hb, fun e => ?_⟩
    -- in this shape the URI of a prefix parses back to it
    have huri : ∀ p ∈ j.orphanPrefixes w, uriKey p = p := fun p hp => by
      obtain ⟨h2, hk⟩ := Bucket.mem_runPrefixes.1 (mem_orphanPrefixes.1 hp).1
      obtain ⟨a, b, ha, hb, rfl⟩ := isTwoField_iff.1 h2
      obtain ⟨hne, hca, -, hcb⟩ := hm.segments ha hb hk
      exact uriKey_of_plain (fun c hc => isIdChar_plain (hca c hc))
        (fun c hc => isIdChar_plain (hcb c hc)) hne
    have hrm : ∀ k ∈ w.s3 j.bucket.name, k ∈ removed ↔ ∃ p ∈ j.orphanPrefixes w, p <+: k := by
      intro k hk
      constructor
      · intro hkr
        obtain ⟨-, p, hp, hpk⟩ := hP.sound k hkr
        rw [reached_eq_self hnr] at hp
        exact ⟨p, hp, huri p hp ▸ hpk⟩
      · rintro ⟨p, hp, hpk⟩
        exact hall p hp k hk (by rwa [huri p hp])
    rw [World.deleteKeys_s3_self, SortedMap.mem_restrict_entries, decide_eq_true_iff,
      and_congr_right_iff]
    intro he
    rw [hrm _ (SortedMap.mem_of_entry he)]
    simp only [plan_orphans, mem_uris, not_exists, not_and]

section Sample

theorem twoOrphans_wellShaped : (twoOrphans.s3 sampleJanitor.bucket.name).WellShaped := by
  intro a b rest ha hb hk
  have hkeys : ∀ k ∈ (twoOrphans.s3 ['b']).keys, k = sampleRunPrefix '0' ++ ['x'] ∨
      k = sampleRunPrefix '1' ++ ['x'] := by decide +kernel
  rcases hkeys _ hk with h | h <;>
  · obtain ⟨rfl, rfl, -⟩ := runPrefix_append_inj ha hb (by decide) (by decide) h
    exact ⟨by decide, fun c hc => by rw [List.mem_singleton.1 hc]; decide, by decide,
      fun c hc => by rw [List.eq_of_mem_replicate hc]; decide⟩

theorem exec_sampleSweep : ∃ tr rep w', Exec (Serves (Answers fun _ => none))
    (sampleJanitor.sweep true) twoOrphans tr (.ok rep) w' :=
  exec_of_isOk (answers_refusing fun _ => none) (by decide +kernel)

/-- A sweep of two orphans returns, and nothing of them is left. -/
theorem sweep_exact_twoOrphans :
    ∃ tr rep w', Exec (Serves (Answers fun _ => none)) (sampleJanitor.sweep true) twoOrphans tr
        (.ok rep) w' ∧
      sampleJanitor.Exact twoOrphans rep ∧ rep.purged = rep.orphans ∧
      w'.mlflow = twoOrphans.mlflow ∧ (∀ b, b ≠ ['b'] → w'.s3 b = twoOrphans.s3 b) ∧
      ∀ e, e ∈ (w'.s3 ['b']).entries ↔ e ∈ (twoOrphans.s3 ['b']).entries ∧
        ∀ p, s3Uri ['b'] p ∈ rep.orphans → ¬ p <+: e.1 := by
  obtain ⟨tr, rep, w', h⟩ := exec_sampleSweep
  exact ⟨tr, rep, w', h, (sweep_exact sampleJanitor twoOrphans twoOrphans_wellShaped).2.2 _ _ _ h⟩

end Sample

end Accel.Model
