import AccelProf.Janitor.Breaker

/-! Which objects a sweep may remove, and when it removes another. -/

namespace Accel.Model
open Data Program Prog

variable {j : Janitor} {w w' : World} {tr : List (Step Call Ans Fate World)}

/-- MLflow has no such run, or has it deleted, failed or killed. -/
def Mlflow.Retired (m : Mlflow) (id : Str) : Prop := ∀ run, m.runs id = some run →
  run.lifecycleStage = .deleted ∨ run.status = some .failed ∨ run.status = some .killed

/-- A key the collector is there for: under the prefix of a retired run that is neither held nor
young. -/
def Janitor.MayRemove (j : Janitor) (w : World) (k : Key) : Prop :=
  ∃ aliasName id rest, k = runPrefix aliasName id ++ rest ∧ aliasName ≠ [] ∧ '/' ∉ aliasName ∧
    isRunId id = true ∧ w.mlflow.Retired id ∧
    runPrefix aliasName id ++ retentionMarker ∉ w.s3 j.bucket.name ∧
    ∀ e ∈ (w.s3 j.bucket.name).under (runPrefix aliasName id), ∀ t, e.2.lastModified = some t →
      ¬ j.now - t < j.minAge

/-- The record of an active run without one of the statuses MLflow writes. -/
def Mlflow.Unclear (m : Mlflow) (id : Str) : Prop := ∃ run, m.runs id = some run ∧
  run.lifecycleStage = .active ∧ (run.status = none ∨ ∃ s, run.status = some (.unknown s))

/-- The orphan prefixes that lead the deletion astray: an empty second segment, an unclear record,
or a URI that parses to another prefix under which something must stay. -/
def Janitor.Astray (j : Janitor) (w : World) (p : Key) : Prop :=
  if uriKey p = p then (∃ a, '/' ∉ a ∧ p = runPrefix a []) ∨ w.mlflow.Unclear (runIdOf p)
  else ∃ k ∈ w.s3 j.bucket.name, uriKey p <+: k ∧ ¬ j.MayRemove w k

theorem retired_of_gone {id : Str} (hg : isGone w.ask id = true) (hu : ¬ w.mlflow.Unclear id) :
    w.mlflow.Retired id := by
  intro run hrun
  simp only [isGone, World.ask, hrun, decide_eq_true_eq] at hg
  by_contra hr
  rw [not_or, not_or] at hr
  have hact : run.lifecycleStage = .active := by
    cases hl : run.lifecycleStage with
    | active => rfl
    | deleted => exact absurd hl hr.1
  have hnot : ¬ (run.status = none ∨ ∃ s, run.status = some (.unknown s)) :=
    fun h => hu ⟨run, hrun, hact, h⟩
  simp only [dispositionOf, RunRef.isDeleted, RunRef.isFinished, toRef, hact] at hg
  rcases hs : run.status with _ | _ | _ | _ | _ | _ | s <;> simp_all

/-- Under an orphan whose URI names it, and which is not astray, everything may go. -/
theorem mayRemove_of_orphan {p k : Key} (hp : j.IsOrphan w p) (hu : uriKey p = p)
    (ha : ¬ j.Astray w p) (hpk : p <+: k) : j.MayRemove w k := by
  obtain ⟨hpre, ho⟩ := hp
  obtain ⟨a, b, hsa, hsb, rfl⟩ := isTwoField_iff.1 (Bucket.mem_runPrefixes.1 hpre).1
  obtain ⟨rest, rfl⟩ := hpk
  rw [Janitor.Astray, if_pos hu, not_or] at ha
  have hb : b ≠ [] := fun h => ha.1 ⟨a, hsa, by rw [h]⟩
  rw [runIdOf_runPrefix hsa hsb, if_neg hb] at ha
  simp only [Janitor.isOrphaned, Janitor.isConsidered, runIdOf_runPrefix hsa hsb, if_neg hb,
    Bool.and_eq_true, Bool.not_eq_true'] at ho
  obtain ⟨⟨⟨hrec, hid⟩, hg⟩, hm⟩ := ho
  refine ⟨a, b, rest, rfl, ?_, hsa, ?_, retired_of_gone hg ha.2, ?_, (j.recent_eq_false).1 hrec⟩
  · rintro rfl
    exact head_uriKey (runPrefix [] b) (by rw [hu]; rfl)
  · rcases matchesRunId_iff.1 hid with h | ⟨t, rfl, -⟩
    · exact h
    · have := not_removed_of_uriKey hu (c := '\n') (by simp [runPrefix])
      exact absurd this (by decide)
  · rw [← Bucket.marked_iff hsb hb, hm]
    exact Bool.false_ne_true

/-- Under an astray orphan something is taken that must stay. -/
theorem exists_not_mayRemove {p : Key} (hp : j.IsOrphan w p) (ha : j.Astray w p) :
    ∃ k ∈ w.s3 j.bucket.name, uriKey p <+: k ∧ ¬ j.MayRemove w k := by
  rw [Janitor.Astray] at ha
  split_ifs at ha with hu
  swap
  · exact ha
  obtain ⟨h2, k, hk, rest, rfl⟩ := Bucket.mem_runPrefixes.1 hp.1
  obtain ⟨a, b, hsa, hsb, rfl⟩ := isTwoField_iff.1 h2
  refine ⟨_, hk, by rw [hu]; exact List.prefix_append _ _, ?_⟩
  rintro ⟨a', id, rest', heq, -, hsa', hid, hret, -⟩
  obtain ⟨rfl, rfl, -⟩ := runPrefix_append_inj hsa hsb hsa' (not_mem_of_isRunId hid) heq
  rcases ha with ⟨a', ha', he⟩ | ⟨run, hrun, hact, hst⟩
  · have h : runPrefix a b ++ [] = runPrefix a' [] ++ [] := by rw [he]
    obtain ⟨-, rfl, -⟩ := runPrefix_append_inj hsa hsb ha' (by simp) h
    exact isRunId_ne_nil hid rfl
  · rw [runIdOf_runPrefix hsa hsb, if_neg (isRunId_ne_nil hid)] at hrun
    rcases hret run hrun with h | h | h
    · rw [hact] at h
      cases h
    · rcases hst with hs | ⟨s, hs⟩ <;> cases hs.symm.trans h
    · rcases hst with hs | ⟨s, hs⟩ <;> cases hs.symm.trans h

theorem reliable_authoritative (c : Call) (l : Fate) (h : Reliable c l) : Authoritative c l := by
  cases c <;> first | exact h | trivial

/-- Whatever S3 does, every sweep of a bucket removes only what it may exactly when the breaker
trips or no orphan that the purge loop gets to is astray. -/
theorem sweep_removes_only_iff (j : Janitor) (w : World) :
    (∀ tr r w', Exec (Serves Authoritative) (j.sweep true) w tr r w' →
      ∀ b, ∀ k ∈ w.s3 b, k ∉ w'.s3 b → b = j.bucket.name ∧ j.MayRemove w k) ↔
    j.BreakerTrips (w.s3 j.bucket.name) w.ask ∨
    ∀ p ∈ reached (j.orphanPrefixes w), ¬ j.Astray w p := by
  have hsub : ∀ p ∈ reached (j.orphanPrefixes w), j.IsOrphan w p := fun p hp =>
    mem_orphanPrefixes_iff.1 ((List.takeWhile_sublist _).subset hp)
  constructor
  · refine fun hall => or_iff_not_imp_left.2 fun hb p hp ha => ?_
    have ht : j.ratioTripped (j.plan w) = false := by
      rwa [← Bool.not_eq_true, ratioTripped_plan]
    -- one astray orphan is enough: some sweep removes what it must not
    obtain ⟨k, hk, hpk, hstay⟩ := exists_not_mayRemove (hsub p hp) ha
    obtain ⟨tr, r, w', h, hgone⟩ := exists_removing ht hp hk hpk
    have hx := h.mono fun _ _ _ _ _ => Serves.mono reliable_authoritative
    exact hstay (hall tr r w' hx _ k hk hgone).2
  · intro hcond tr r w' h b k hk hgone
    rcases exec_sweep_ask (fun _ _ hl => hl) h with ⟨rfl, -⟩ | ⟨ht, removed, rfl, hP⟩
    · exact absurd hk hgone
    have hb : b = j.bucket.name := by
      by_contra hne
      rw [World.deleteKeys, World.setBucket_s3_ne hne] at hgone
      exact hgone hk
    subst hb
    refine ⟨rfl, ?_⟩
    have hkr : k ∈ removed := by
      by_contra hkr
      exact hgone (World.mem_deleteKeys.2 ⟨hk, hkr⟩)
    obtain ⟨-, p, hp, hpk⟩ := hP.sound k hkr
    have ha := hcond.resolve_left (fun hb => by
      rw [ratioTripped_plan.2 hb] at ht
      cases ht) p hp
    -- an orphan whose URI parses back to it loses only its own objects
    by_cases hu : uriKey p = p
    · exact mayRemove_of_orphan (hsub p hp) hu ha (hu ▸ hpk)
    · rw [Janitor.Astray, if_neg hu] at ha
      by_contra hn
      exact ha ⟨k, hk, hpk, hn⟩

def sampleRun (status : RunStatus) : Run := (newRun ['0'] [] [] none).setStatus status

/-- A finished run, and beside it a foreign prefix that is the run's own but for a line break. -/
def lineBreak : World :=
  .of ['b'] [sampleRunPrefix '0' ++ ['x'], runPrefix ['a'] (sampleRunId '0' ++ ['\n']) ++ ['x']] []
    [(sampleRunId '0', sampleRun .finished)]

/-- The artifact of the finished run is deleted in the name of the foreign prefix. -/
theorem sweep_removes_finished : ∃ tr r w',
    Exec (Serves Authoritative) (sampleJanitor.sweep true) lineBreak tr r w' ∧
      sampleRunPrefix '0' ++ ['x'] ∈ lineBreak.s3 ['b'] ∧
      sampleRunPrefix '0' ++ ['x'] ∉ w'.s3 ['b'] ∧
      lineBreak.mlflow.runs (sampleRunId '0') = some (sampleRun .finished) ∧
      ¬ sampleJanitor.MayRemove lineBreak (sampleRunPrefix '0' ++ ['x']) := by
  obtain ⟨tr, r, w', h, hgone⟩ := exists_removing (j := sampleJanitor) (w := lineBreak)
    (p := runPrefix ['a'] (sampleRunId '0' ++ ['\n'])) (k := sampleRunPrefix '0' ++ ['x'])
    (by decide +kernel) (by decide +kernel) (by decide +kernel) (by decide +kernel)
  refine ⟨tr, r, w', h.mono fun _ _ _ _ _ => Serves.mono reliable_authoritative,
    by decide +kernel, hgone, rfl, ?_⟩
  rintro ⟨a, id, rest, heq, -, hsa, hid, hret, -⟩
  obtain ⟨rfl, rfl, -⟩ :=
    runPrefix_append_inj (by decide) (by decide) hsa (not_mem_of_isRunId hid) heq
  rcases hret _ rfl with h | h | h <;> cases h

end Accel.Model
