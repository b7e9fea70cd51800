import AccelProf.Janitor.Exactness
import AccelProf.Platform.Isolation

/-! Sweeps one after another, as a cron job runs them: what an early sweep collects a later one
would have collected too, so the last one alone decides what is left. -/

namespace Accel.Model
open Data Program Prog

variable {j : Janitor} {w w' w₁ w₂ : World} {tr : List (Step Call Ans Fate World)} {b : BucketName}
  {c c' : Seconds} {p : Key} {apply : Bool}

section Orphans

/-- Objects that were last modified after this moment are too young to go. -/
def Janitor.cutoff (j : Janitor) : Seconds := j.now - j.minAge

/-- An orphan of a sweep whose cut-off is `c`. -/
structure OrphanAt (b : BucketName) (c : Seconds) (w : World) (p : Key) : Prop where
  listed : p ∈ (w.s3 b.name).runPrefixes
  old : ∀ e ∈ (w.s3 b.name).under p, ∀ t, e.2.lastModified = some t → t ≤ c
  named : matchesRunId (runIdOf p) = true
  gone : isGone w.ask (runIdOf p) = true
  unheld : (w.s3 b.name).marked p = false

theorem isOrphan_iff : j.IsOrphan w p ↔ OrphanAt j.bucket j.cutoff w p := by
  have hold : j.recent (w.s3 j.bucket.name) p = false ↔
      ∀ e ∈ (w.s3 j.bucket.name).under p, ∀ t, e.2.lastModified = some t → t ≤ j.cutoff := by
    rw [Janitor.recent_eq_false]
    unfold Janitor.cutoff
    constructor
    · intro h e he t ht
      have := h e he t ht
      linarith
    · intro h e he t ht hlt
      have := h e he t ht
      linarith
  unfold Janitor.IsOrphan Janitor.isOrphaned Janitor.isConsidered
  simp only [Bool.and_eq_true, Bool.not_eq_true']
  constructor
  · rintro ⟨hl, ⟨⟨hr, hn⟩, hg⟩, hm⟩
    exact ⟨hl, hold.1 hr, hn, hg, hm⟩
  · intro h
    exact ⟨h.listed, ⟨⟨hold.2 h.old, h.named⟩, h.gone⟩, h.unheld⟩

theorem OrphanAt.mono (h : OrphanAt b c w p) (hle : c ≤ c') : OrphanAt b c' w p :=
  { h with old := fun e he t ht => (h.old e he t ht).trans hle }

theorem OrphanAt.twoField (h : OrphanAt b c w p) : IsTwoField '/' p :=
  (Bucket.mem_runPrefixes.1 h.listed).1

/-- Whether a prefix is an orphan is decided by its own objects and by MLflow. -/
theorem OrphanAt.congr (h : OrphanAt b c w p) (hm : w'.mlflow = w.mlflow)
    (hu : (w'.s3 b.name).under p = (w.s3 b.name).under p) : OrphanAt b c w' p := by
  have hask : w'.ask = w.ask := by
    funext id
    unfold World.ask
    rw [hm]
  obtain ⟨htwo, k, hk, hpk⟩ := Bucket.mem_runPrefixes.1 h.listed
  have hkey : k ∈ ((w'.s3 b.name).under p).map Prod.fst := by
    rw [hu]
    exact Bucket.mem_under_keys.2 ⟨hk, hpk⟩
  refine ⟨Bucket.mem_runPrefixes.2 ⟨htwo, k, (Bucket.mem_under_keys.1 hkey).1, hpk⟩, ?_, h.named,
    ?_, ?_⟩
  · rw [hu]
    exact h.old
  · rw [hask]
    exact h.gone
  · unfold Bucket.marked
    rw [hu]
    exact h.unheld

end Orphans

section Trims

/-- Some objects below orphans of cut-off `c` are gone, and nothing else has changed. -/
structure Trims (b : BucketName) (c : Seconds) (w w' : World) : Prop where
  mlflow : w'.mlflow = w.mlflow
  others : ∀ b', b' ≠ b.name → w'.s3 b' = w.s3 b'
  kept : ∀ e ∈ (w'.s3 b.name).entries, e ∈ (w.s3 b.name).entries
  removed : ∀ e ∈ (w.s3 b.name).entries, e ∉ (w'.s3 b.name).entries →
    ∃ p, OrphanAt b c w p ∧ p <+: e.1

theorem Trims.refl (b : BucketName) (c : Seconds) (w : World) : Trims b c w w :=
  ⟨rfl, fun _ _ => rfl, fun _ he => he, fun _ he hn => absurd he hn⟩

theorem Trims.wellShaped (h : Trims b c w w') (hm : (w.s3 b.name).WellShaped) :
    (w'.s3 b.name).WellShaped := by
  intro a s rest ha hs hk
  obtain ⟨obj, he⟩ := SortedMap.mem_def.1 hk
  exact hm a s rest ha hs (SortedMap.mem_of_entry (h.kept _ he))

theorem Trims.mem_under (h : Trims b c w w') {e : Key × Obj}
    (he : e ∈ (w'.s3 b.name).under p) : e ∈ (w.s3 b.name).under p := by
  rw [Bucket.mem_under] at he ⊢
  exact ⟨h.kept e he.1, he.2⟩

/-- An orphan of which something is left is still one. -/
theorem Trims.orphan (h : Trims b c w w') (ho : OrphanAt b c' w p)
    (hleft : ∃ k ∈ w'.s3 b.name, p <+: k) : OrphanAt b c' w' p := by
  have hask : w'.ask = w.ask := by
    funext id
    unfold World.ask
    rw [h.mlflow]
  refine ⟨Bucket.mem_runPrefixes.2 ⟨ho.twoField, hleft⟩,
    fun e he => ho.old e (h.mem_under he), ho.named, ?_, ?_⟩
  · rw [hask]
    exact ho.gone
  · cases hmark : (w'.s3 b.name).marked p with
    | false => rfl
    | true =>
      obtain ⟨e, he, hkey⟩ := List.any_eq_true.1 hmark
      have hmarked : (w.s3 b.name).marked p = true :=
        List.any_eq_true.2 ⟨e, h.mem_under he, hkey⟩
      rw [ho.unheld] at hmarked
      cases hmarked

/-- What is an orphan after some sweeps was one before them. -/
theorem Trims.orphan_before (h : Trims b c w w') (hle : c ≤ c') (ho : OrphanAt b c' w' p) :
    OrphanAt b c' w p := by
  by_cases htouched : ∃ e ∈ (w.s3 b.name).entries, p <+: e.1 ∧ e ∉ (w'.s3 b.name).entries
  · obtain ⟨e, he, hpe, hn⟩ := htouched
    obtain ⟨q, hq, hqe⟩ := h.removed e he hn
    obtain rfl := twoField_unique ho.twoField hq.twoField hpe hqe
    exact hq.mono hle
  · apply ho.congr h.mlflow.symm
    apply Bucket.under_congr
    intro e hpe
    constructor
    · intro he
      by_contra hn
      exact htouched ⟨e, he, hpe, hn⟩
    · exact h.kept e

theorem Trims.trans (h : Trims b c w w₁) (hle : c ≤ c') (h' : Trims b c' w₁ w₂) :
    Trims b c' w w₂ := by
  refine ⟨h'.mlflow.trans h.mlflow, fun b' hb => (h'.others b' hb).trans (h.others b' hb),
    fun e he => h.kept e (h'.kept e he), fun e he hn => ?_⟩
  by_cases he₁ : e ∈ (w₁.s3 b.name).entries
  · obtain ⟨p, hp, hpe⟩ := h'.removed e he₁ hn
    exact ⟨p, h.orphan_before hle hp, hpe⟩
  · obtain ⟨p, hp, hpe⟩ := h.removed e he he₁
    exact ⟨p, hp.mono hle, hpe⟩

end Trims

section Clears

/-- Exactly the objects below the orphans of cut-off `c` are gone. -/
structure Clears (b : BucketName) (c : Seconds) (w w' : World) : Prop where
  mlflow : w'.mlflow = w.mlflow
  others : ∀ b', b' ≠ b.name → w'.s3 b' = w.s3 b'
  left : ∀ e, e ∈ (w'.s3 b.name).entries ↔ e ∈ (w.s3 b.name).entries ∧
    ∀ p, OrphanAt b c w p → ¬ p <+: e.1

theorem Trims.clears (h : Trims b c w w₁) (hle : c ≤ c') (h' : Clears b c' w₁ w₂) :
    Clears b c' w w₂ := by
  refine ⟨h'.mlflow.trans h.mlflow, fun b' hb => (h'.others b' hb).trans (h.others b' hb),
    fun e => ?_⟩
  rw [h'.left]
  constructor
  · rintro ⟨he, hfree⟩
    refine ⟨h.kept e he, fun p hp hpe => hfree p (h.orphan hp ?_) hpe⟩
    exact ⟨e.1, SortedMap.mem_of_entry he, hpe⟩
  · rintro ⟨he, hfree⟩
    constructor
    · by_contra hn
      obtain ⟨p, hp, hpe⟩ := h.removed e he hn
      exact hfree p (hp.mono hle) hpe
    · exact fun p hp => hfree p (h.orphan_before hle hp)

theorem Clears.unique (h : Clears b c w w₁) (h' : Clears b c w w₂) : w₁ = w₂ := by
  have hs3 : w₁.s3 = w₂.s3 := by
    funext b'
    by_cases hb : b' = b.name
    · have : Std.Irrefl fun x y : Key × Obj => x.1 < y.1 := ⟨fun x => lt_irrefl x.1⟩
      have hentries : (w₁.s3 b.name).entries = (w₂.s3 b.name).entries :=
        (w₁.s3 b.name).sorted.eq_of_mem_iff (w₂.s3 b.name).sorted fun e => by
          rw [h.left, h'.left]
      rw [hb]
      cases h₁ : w₁.s3 b.name
      cases h₂ : w₂.s3 b.name
      rw [h₁, h₂] at hentries
      cases hentries
      rfl
    · rw [h.others b' hb, h'.others b' hb]
  have hmlflow : w₁.mlflow = w₂.mlflow := h.mlflow.trans h'.mlflow.symm
  cases w₁
  cases w₂
  cases hs3
  cases hmlflow
  rfl

end Clears

section Sweep

theorem uriKey_of_wellShaped (hm : (w.s3 b.name).WellShaped) (h : OrphanAt b c w p) :
    uriKey p = p := by
  obtain ⟨h2, hk⟩ := Bucket.mem_runPrefixes.1 h.listed
  obtain ⟨a, s, ha, hs, rfl⟩ := isTwoField_iff.1 h2
  obtain ⟨hne, hca, -, hcs⟩ := hm.segments ha hs hk
  exact uriKey_of_plain (fun x hx => isIdChar_plain (hca x hx))
    (fun x hx => isIdChar_plain (hcs x hx)) hne

theorem mem_orphans {w : World} : p ∈ j.orphanPrefixes w ↔ OrphanAt j.bucket j.cutoff w p := by
  rw [mem_orphanPrefixes_iff, isOrphan_iff]

theorem mem_deleteKeys_entries {removed : List Key} {e : Key × Obj} :
    e ∈ ((w.deleteKeys b.name removed).s3 b.name).entries ↔
      e ∈ (w.s3 b.name).entries ∧ e.1 ∉ removed := by
  rw [World.deleteKeys_s3_self, SortedMap.mem_restrict_entries, decide_eq_true_iff]

/-- However a sweep ends, it trims. -/
theorem exec_sweep_trims (hm : (w.s3 j.bucket.name).WellShaped) {r : Except PyExc SweepReport}
    (h : Exec (Serves (Answers fun _ => none)) (j.sweep apply) w tr r w') :
    Trims j.bucket j.cutoff w w' := by
  cases apply with
  | false =>
    obtain ⟨rfl, -⟩ := exec_dryRun (oracle_ask (fun _ _ hl => hl) w) h
    exact .refl _ _ _
  | true =>
    rcases exec_sweep_ask (fun _ _ hl => hl) h with ⟨rfl, -⟩ | ⟨-, removed, rfl, hP⟩
    · exact .refl _ _ _
    · refine ⟨rfl, fun b' hb => World.setBucket_s3_ne hb, fun e he => ?_, fun e he hn => ?_⟩
      · exact (mem_deleteKeys_entries.1 he).1
      · have hrem : e.1 ∈ removed := by
          by_contra hr
          exact hn (mem_deleteKeys_entries.2 ⟨he, hr⟩)
        obtain ⟨-, p, hp, hpe⟩ := hP.sound e.1 hrem
        have horphan := mem_orphans.1 ((List.takeWhile_sublist _).subset hp)
        refine ⟨p, horphan, ?_⟩
        rwa [uriKey_of_wellShaped hm horphan] at hpe

theorem exec_sweep_clears (hm : (w.s3 j.bucket.name).WellShaped) {rep : SweepReport}
    (h : Exec (Serves (Answers fun _ => none)) (j.sweep true) w tr (.ok rep) w') :
    Clears j.bucket j.cutoff w w' := by
  rcases exec_sweep_ask (fun _ _ hl => hl) h with
    ⟨-, ⟨hl, -⟩ | ⟨-, e, hr, -⟩⟩ | ⟨-, removed, rfl, hP⟩
  · exact absurd (listsOk_answers _) hl
  · cases hr
  · obtain ⟨-, hall, -⟩ := hP.returned rep rfl
    have htrims := exec_sweep_trims hm h
    refine ⟨rfl, htrims.others, fun e => ?_⟩
    rw [mem_deleteKeys_entries]
    apply and_congr_right
    intro he
    constructor
    · intro hn p hp hpe
      apply hn
      apply hall p (mem_orphans.2 hp) e.1 (SortedMap.mem_of_entry he)
      rwa [uriKey_of_wellShaped hm hp]
    · intro hfree hrem
      have hgone : e ∉ ((w.deleteKeys j.bucket.name removed).s3 j.bucket.name).entries :=
        fun hin => (mem_deleteKeys_entries.1 hin).2 hrem
      obtain ⟨p, hp, hpe⟩ := htrims.removed e he hgone
      exact hfree p hp hpe

end Sweep

section Repeated

/-- Sweeps of a bucket one after another, dry or not and however they ended, with cut-offs that do
not go back. -/
inductive Sweeps (b : BucketName) (w : World) : Seconds → World → Prop
  | start (c : Seconds) : Sweeps b w c w
  | sweep {c : Seconds} {w₁ w₂ : World} {j : Janitor} {apply : Bool}
      {tr : List (Step Call Ans Fate World)} {r : Except PyExc SweepReport} (h : Sweeps b w c w₁)
      (hb : j.bucket = b) (hle : c ≤ j.cutoff)
      (hx : Exec (Serves (Answers fun _ => none)) (j.sweep apply) w₁ tr r w₂) :
      Sweeps b w j.cutoff w₂

theorem Sweeps.trims (hm : (w.s3 b.name).WellShaped) (h : Sweeps b w c w') : Trims b c w w' := by
  induction h with
  | start c => exact .refl b c w
  | sweep h hb hle hx ih =>
    cases hb
    exact ih.trans hle (exec_sweep_trims (ih.wellShaped hm) hx)

/-- A sweep that returns makes up for all the sweeps before it: whether these were dry, aborted or
failed half-way, what it leaves is what it would have left had none of them run, all objects but
those below the orphans of its own cut-off. -/
theorem last_sweep_decides (hm : (w.s3 j.bucket.name).WellShaped)
    (h : Sweeps j.bucket w c w₁) (hle : c ≤ j.cutoff) {rep : SweepReport}
    (hlast : Exec (Serves (Answers fun _ => none)) (j.sweep true) w₁ tr (.ok rep) w₂) :
    (∀ e, e ∈ (w₂.s3 j.bucket.name).entries ↔ e ∈ (w.s3 j.bucket.name).entries ∧
      ∀ p, OrphanAt j.bucket j.cutoff w p → ¬ p <+: e.1) ∧
    ∀ tr' rep' w', Exec (Serves (Answers fun _ => none)) (j.sweep true) w tr' (.ok rep') w' →
      w' = w₂ := by
  have htrims := h.trims hm
  have hclears := htrims.clears hle (exec_sweep_clears (htrims.wellShaped hm) hlast)
  refine ⟨hclears.left, fun tr' rep' w' h' => ?_⟩
  exact (exec_sweep_clears hm h').unique hclears

/-- After a sweep that returned, further ones with no later cut-off find no orphan, return and
change nothing. -/
theorem sweep_settles {j' : Janitor} (hm : (w.s3 j.bucket.name).WellShaped) {rep : SweepReport}
    (h : Exec (Serves (Answers fun _ => none)) (j.sweep true) w tr (.ok rep) w₁)
    (hb : j'.bucket = j.bucket) (hle : j'.cutoff ≤ j.cutoff)
    (hf : j'.maxOrphanFraction.below 0 = false)
    {tr' : List (Step Call Ans Fate World)} {r : Except PyExc SweepReport}
    (h' : Exec (Serves (Answers fun _ => none)) (j'.sweep true) w₁ tr' r w₂) :
    w₂ = w₁ ∧ ∃ rep', r = .ok rep' ∧ rep'.orphans = [] ∧ rep'.purged = [] := by
  have htrims := exec_sweep_trims hm h
  have hclears := exec_sweep_clears hm h
  have hnone : j'.orphanPrefixes w₁ = [] := by
    apply List.eq_nil_iff_forall_not_mem.2
    intro p hp
    have horphan := (mem_orphans.1 hp).mono hle
    rw [hb] at horphan
    obtain ⟨-, k, hk, hpk⟩ := Bucket.mem_runPrefixes.1 horphan.listed
    obtain ⟨obj, he⟩ := SortedMap.mem_def.1 hk
    exact ((hclears.left _).1 he).2 p (htrims.orphan_before le_rfl horphan) hpk
  have horphans : (j'.plan w₁).orphans = [] := by
    rw [plan_orphans, hnone]
    rfl
  have ho : Oracle (Answers fun _ => none) w₁ w₁.ask := oracle_ask (fun _ _ hl => hl) w₁
  -- without an orphan the breaker has nothing to compare
  have hcalm : j'.ratioTripped (j'.plan w₁) = false := by
    unfold Janitor.ratioTripped
    rw [horphans]
    apply decide_eq_false
    rintro ⟨hfive, hlt⟩
    have hpos : 0 < Janitor.considered (j'.plan w₁) := lt_of_lt_of_le (by decide) hfive
    have hnot := below_mulInt hf hpos
    simp only [List.length_nil, Nat.cast_zero] at hlt
    rw [hnot] at hlt
    cases hlt
  simp only [Janitor.sweep, bind_eq, Bool.not_true, Bool.false_eq_true, if_false] at h'
  rcases exec_bind.1 h' with ⟨e, he, rfl⟩ | ⟨rep', tr₁, tr₂, w₃, h₁, h₂, -⟩
  · obtain ⟨-, hr | ⟨hl, -⟩⟩ := reads_findOrphans ho _ _ _ he
    · cases hr.trans (survey_ask w₁)
    · exact absurd (listsOk_answers _) hl
  · obtain ⟨rfl, hr | ⟨hl, -⟩⟩ := reads_findOrphans ho _ _ _ h₁
    · obtain rfl := Except.ok.inj (hr.trans (survey_ask w₃))
      rw [hcalm, if_neg (by simp), horphans] at h₂
      obtain ⟨-, rfl, rfl⟩ := h₂
      exact ⟨rfl, _, rfl, horphans, rfl⟩
    · exact absurd (listsOk_answers _) hl

/-- A sweep after a dry run. -/
theorem last_sweep_decides_sample : ∃ w₂ : World, ∀ e, e ∈ (w₂.s3 ['b']).entries ↔
    e ∈ (twoOrphans.s3 ['b']).entries ∧
      ∀ p, OrphanAt sampleBucket sampleJanitor.cutoff twoOrphans p → ¬ p <+: e.1 := by
  obtain ⟨tr, rep, w₂, hlast⟩ := exec_sampleSweep
  have hdry := exec_simulate (sampleJanitor.sweep false) twoOrphans
    (answers_refusing fun _ => none)
  obtain ⟨hsame, -⟩ := exec_dryRun (oracle_ask (fun _ _ hl => hl) _) hdry
  rw [hsame] at hdry
  have hsweeps : Sweeps sampleJanitor.bucket twoOrphans sampleJanitor.cutoff twoOrphans :=
    (Sweeps.start sampleJanitor.cutoff).sweep rfl le_rfl hdry
  exact ⟨w₂, (last_sweep_decides twoOrphans_wellShaped hsweeps le_rfl hlast).1⟩

/-- The same sweep twice. -/
theorem sweep_settles_sample : ∃ w₁ w₂ rep', w₂ = w₁ ∧ rep'.purged = [] ∧
    ∃ tr, Exec (Serves (Answers fun _ => none)) (sampleJanitor.sweep true) w₁ tr (.ok rep') w₂ := by
  obtain ⟨tr, rep, w₁, hfirst⟩ := exec_sampleSweep
  have hsecond := exec_simulate (sampleJanitor.sweep true) w₁ (answers_refusing fun _ => none)
  obtain ⟨hsame, rep', hr, -, hpurged⟩ := sweep_settles twoOrphans_wellShaped hfirst rfl le_rfl
    (by decide +kernel) hsecond
  rw [hr] at hsecond
  exact ⟨w₁, _, rep', hsame, hpurged, _, hsecond⟩

end Repeated

end Accel.Model
