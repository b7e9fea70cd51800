import AccelProf.Model.AnalysisService
import AccelProf.Analysis.Escape
import AccelProf.Store.Lookup

/-! Selection by alias and chip: the latest usable run of the chip, with the same outcome as by its
id. -/

namespace Accel.Model
open Data Program Prog

variable {w w' : World} {tr : List (Step Call Ans Fate World)} {aliasName chip id pattern : Str}
  {run : Run}
  {first ref : RunRef} {rest : List RunRef}

/-- The experiment of the alias has the run, finished and not soft-deleted, and the run is of the
chip. -/
structure Offers (w : World) (aliasName chip id : Str) (run : Run) : Prop where
  listed : id ∈ w.mlflow.runIds
  stored : w.mlflow.runs id = some run
  experiment : w.mlflow.experiments aliasName = some run.experimentId
  of_chip : run.tags chipTag = some chip
  finished : run.status = some .finished
  active : run.lifecycleStage = .active

/-- The start time of a run; a missing one counts as 0. -/
def startOf (run : Run) : Int := run.startTime.getD 0

section Latest

theorem latestRun_cons (r : RunRef) :
    latestRun first (r :: rest) =
      latestRun (if first.startKey < r.startKey then r else first) rest := rfl

theorem latestRun_mem (first : RunRef) (rest : List RunRef) :
    latestRun first rest ∈ first :: rest := by
  induction rest generalizing first with
  | nil => exact List.mem_singleton_self first
  | cons r rest ih =>
    rw [latestRun_cons]
    have hmem := ih (if first.startKey < r.startKey then r else first)
    split_ifs at hmem ⊢
    · exact List.mem_cons_of_mem _ hmem
    · exact List.cons_subset_cons first (List.subset_cons_self r rest) hmem

theorem latestRun_max (first : RunRef) (rest : List RunRef) :
    ∀ r ∈ first :: rest, r.startKey ≤ (latestRun first rest).startKey := by
  induction rest generalizing first with
  | nil => exact fun r hr => le_of_eq (congrArg _ (List.mem_singleton.1 hr))
  | cons r rest ih =>
    rw [latestRun_cons]
    have hmax := List.forall_mem_cons.1 (ih (if first.startKey < r.startKey then r else first))
    have hboth : first.startKey ≤ (if first.startKey < r.startKey then r else first).startKey ∧
        r.startKey ≤ (if first.startKey < r.startKey then r else first).startKey := by
      split_ifs with h
      · exact ⟨h.le, le_rfl⟩
      · exact ⟨le_rfl, not_lt.1 h⟩
    exact List.forall_mem_cons.2
      ⟨hboth.1.trans hmax.1, List.forall_mem_cons.2 ⟨hboth.2.trans hmax.1, hmax.2⟩⟩

end Latest

section Select

theorem truthy_some {s : Str} (h : s ≠ []) : truthy (some s) = some s := by
  cases s with
  | nil => exact absurd rfl h
  | cons => rfl

/-- The records that are left to choose from are those of the runs on offer. -/
theorem mem_offered {expId : Str} {runs : List RunRef}
    (hexp : w.mlflow.experiments aliasName = some expId)
    (hperm : runs.Perm ((w.mlflow.matching [expId]).map toRef)) :
    ref ∈ (kept false runs).filter (·.chip = some chip) ↔
      ∃ id run, Offers w aliasName chip id run ∧ ref = toRef (id, run) := by
  rw [List.mem_filter, mem_kept, hperm.mem_iff, List.mem_map]
  constructor
  · rintro ⟨⟨⟨⟨id, run⟩, hm, rfl⟩, husable⟩, hchip⟩
    obtain ⟨hid, hrun, hof, -⟩ := mem_matching.1 hm
    have hu : run.status = some .finished ∧ run.lifecycleStage = .active := by
      simpa [isUsable_toRef, isUsableRun] using husable
    have he : run.experimentId = expId := List.mem_singleton.1 hof
    exact ⟨id, run, ⟨hid, hrun, by rw [hexp, he], of_decide_eq_true hchip, hu.1, hu.2⟩, rfl⟩
  · rintro ⟨id, run, h, rfl⟩
    have he : run.experimentId = expId := Option.some.inj (h.experiment.symm.trans hexp)
    have hu : isUsableRun run = true := by simp [isUsableRun, h.finished, h.active]
    have hm : (id, run) ∈ w.mlflow.matching [expId] :=
      mem_matching.2 ⟨h.listed, h.stored, List.mem_singleton.2 he, h.active⟩
    exact ⟨⟨⟨_, hm, rfl⟩, .inr ((isUsable_toRef id run).trans hu)⟩, decide_eq_true h.of_chip⟩

theorem exec_selectRun {r : Except PyExc RunRef} (halias : aliasName ≠ []) (hchip : chip ≠ [])
    (h : Exec (Serves Reliable) (selectRun none (some aliasName) (some chip)) w tr r w') : w' = w ∧
      (((¬∃ id run, Offers w aliasName chip id run) ∧ ∃ e, r = .error e ∧ e.isLookupError = true) ∨
        ∃ id run, Offers w aliasName chip id run ∧ r = .ok (toRef (id, run)) ∧
          ∀ id' run', Offers w aliasName chip id' run' → startOf run' ≤ startOf run) := by
  have hselect : selectRun none (some aliasName) (some chip) =
      (resolve aliasName .alias_ false).bind fun runs =>
      pickRun aliasName chip (runs.filter (·.chip = some chip)) := by
    rw [selectRun, truthy_some halias, truthy_some hchip]
    rfl
  rw [hselect, exec_bind] at h
  cases hexp : w.mlflow.experiments aliasName with
  | none =>
    have hnone : ¬∃ id run, Offers w aliasName chip id run := by
      rintro ⟨id, run, ho⟩
      cases hexp.symm.trans ho.experiment
    rcases h with ⟨e, he, rfl⟩ | ⟨runs, tr₁, tr₂, w₁, h₁, -⟩
    · obtain ⟨hr, rfl⟩ := exec_resolve_unknown hexp he
      obtain rfl := Except.error.inj hr
      exact ⟨rfl, .inl ⟨hnone, _, rfl, rfl⟩⟩
    · cases (exec_resolve_unknown hexp h₁).1
  | some expId =>
    rcases h with ⟨e, he, rfl⟩ | ⟨runs, tr₁, tr₂, w₁, h₁, h₂, -⟩
    · obtain ⟨runs, -, hr, -⟩ := exec_resolve_alias hexp he
      cases hr
    obtain ⟨found, hperm, hr, rfl⟩ := exec_resolve_alias hexp h₁
    obtain rfl := Except.ok.inj hr
    -- what the two filters leave is what the alias offers for the chip
    have hmem : ∀ ref, ref ∈ (kept false found).filter (·.chip = some chip) ↔
        ∃ id run, Offers w₁ aliasName chip id run ∧ ref = toRef (id, run) :=
          fun ref => mem_offered hexp hperm
    cases hfilter : (kept false found).filter (·.chip = some chip) with
    | nil =>
      rw [hfilter] at h₂
      obtain ⟨-, rfl, rfl⟩ := h₂
      refine ⟨rfl, .inl ⟨?_, _, rfl, rfl⟩⟩
      rintro ⟨id, run, ho⟩
      have hin := (hmem (toRef (id, run))).2 ⟨id, run, ho, rfl⟩
      rw [hfilter] at hin
      cases hin
    | cons first rest =>
      rw [hfilter] at h₂
      obtain ⟨-, rfl, rfl⟩ := h₂
      obtain ⟨id, run, ho, href⟩ := (hmem _).1 (hfilter ▸ latestRun_mem first rest)
      refine ⟨rfl, .inr ⟨id, run, ho, congrArg _ href, fun id' run' ho' => ?_⟩⟩
      have hle := latestRun_max first rest (toRef (id', run'))
          (hfilter ▸ (hmem _).2 ⟨id', run', ho', rfl⟩)
      rw [href] at hle
      exact hle

theorem exec_selectRun_id {r : Except PyExc RunRef} (hid : id ≠ [])
    (ho : Offers w aliasName chip id run)
    (h : Exec (Serves Reliable) (selectRun (some id) none none) w tr r w') :
    r = .ok (toRef (id, run)) ∧ w' = w := by
  have hselect : selectRun (some id) none none = (resolve id .id false).bind (firstRun id) := by
    rw [selectRun, truthy_some hid]
    rfl
  have hu : isUsable (toRef (id, run)) = true := by
    simp [isUsable_toRef, isUsableRun, ho.finished, ho.active]
  have hkept : kept false [toRef (id, run)] = [toRef (id, run)] := by simp [kept, hu]
  rw [hselect, exec_bind] at h
  rcases h with ⟨e, he, rfl⟩ | ⟨runs, tr₁, tr₂, w₁, h₁, h₂, -⟩
  · cases (exec_resolve_id ho.stored he).1
  · obtain ⟨hr, rfl⟩ := exec_resolve_id ho.stored h₁
    obtain rfl := Except.ok.inj hr
    rw [hkept] at h₂
    exact ⟨h₂.2.1, h₂.2.2⟩

/-- Only the selection makes calls. -/
theorem exec_resolveArtifacts {store : Store} {fs : FileSystem} {runId a c : Option Str}
    {r : Except PyExc ResolvedArtifacts} :
    Exec (Serves Reliable) (resolveArtifacts store fs runId a c pattern) w tr r w' ↔
      ∃ sel, Exec (Serves Reliable) (selectRun runId a c) w tr sel w' ∧
        r = sel.bind (artifactsOf store fs pattern) := by
  have hrest : ∀ {ref tr₂ w₁}, Exec (Serves Reliable)
      (ofExcept (artifactsOf store fs pattern ref)) w₁ tr₂ r w' ↔
      tr₂ = [] ∧ r = artifactsOf store fs pattern ref ∧ w' = w₁ := by
    intro ref tr₂ w₁
    cases artifactsOf store fs pattern ref <;> exact Iff.rfl
  refine exec_bind.trans ⟨?_, ?_⟩
  · rintro (⟨e, he, rfl⟩ | ⟨ref, tr₁, tr₂, w₁, h₁, h₂, rfl⟩)
    · exact ⟨_, he, rfl⟩
    · obtain ⟨rfl, rfl, rfl⟩ := hrest.1 h₂
      exact ⟨_, by rwa [List.append_nil], rfl⟩
  · rintro ⟨sel, hsel, rfl⟩
    cases sel with
    | error e => exact .inl ⟨e, hsel, rfl⟩
    | ok ref => exact .inr ⟨ref, tr, [], w', hsel, hrest.2 ⟨rfl, rfl, rfl⟩,
        (List.append_nil tr).symm⟩

theorem uses_resolveArtifacts (store : Store) (fs : FileSystem) (runId a c : Option Str)
    (pattern : Str) :
    (resolveArtifacts store fs runId a c pattern).Uses LookupCall := by
  refine Uses.bind ?_ fun run => ?_
  · unfold selectRun
    split
    · refine (uses_resolve _ .id false).bind fun runs => ?_
      cases runs <;> trivial
    · refine (uses_resolve _ .alias_ false).bind fun runs => ?_
      cases runs.filter _ <;> trivial
    · trivial
  · cases artifactsOf store fs pattern run <;> trivial

end Select

/-- The selection by alias and chip fails with a `LookupError` exactly when there is no usable run
of the chip; else it takes a latest one, and asking for that run by its id ends the same way. -/
theorem latest_selected (store : Store) (fs : FileSystem) (pattern : Str)
    {r : Except PyExc ResolvedArtifacts}
    (halias : aliasName ≠ []) (hchip : chip ≠ []) (hids : ∀ id ∈ w.mlflow.runIds, id ≠ [])
    (h : Exec (Serves Reliable)
      (resolveArtifacts store fs none (some aliasName) (some chip) pattern) w tr r w') :
    ((∃ e, Exec (Serves Reliable) (selectRun none (some aliasName) (some chip)) w tr (.error e) w' ∧
        e.isLookupError = true ∧ r = .error e) ↔ ¬∃ id run, Offers w aliasName chip id run) ∧
      ((∃ id run, Offers w aliasName chip id run) →
        ∃ id run, Offers w aliasName chip id run ∧
          (∀ id' run', Offers w aliasName chip id' run' → startOf run' ≤ startOf run) ∧
          Exec (Serves Reliable) (selectRun none (some aliasName) (some chip)) w tr
            (.ok (toRef (id, run))) w' ∧
          (∃ tr₂ w₂, Exec (Serves Reliable) (resolveArtifacts store fs (some id) none none pattern)
            w tr₂ r w₂) ∧
          ∀ tr₂ r₂ w₂, Exec (Serves Reliable)
            (resolveArtifacts store fs (some id) none none pattern) w tr₂ r₂ w₂ →
            r₂ = r) := by
  obtain ⟨sel, hsel, rfl⟩ := exec_resolveArtifacts.1 h
  obtain ⟨-, ⟨hnone, e, rfl, he⟩ | ⟨id, run, ho, rfl, hmax⟩⟩ := exec_selectRun halias hchip hsel
  · exact ⟨iff_of_true ⟨e, hsel, he, rfl⟩ hnone, fun h => absurd h hnone⟩
  -- the lookup by id does not depend on the order of anything
  have hsame : ∀ tr₂ r₂ w₂, Exec (Serves Reliable)
      (resolveArtifacts store fs (some id) none none pattern) w tr₂ r₂ w₂ →
      r₂ = artifactsOf store fs pattern (toRef (id, run)) := by
    intro tr₂ r₂ w₂ h₂
    obtain ⟨sel₂, hsel₂, rfl⟩ := exec_resolveArtifacts.1 h₂
    obtain ⟨rfl, -⟩ := exec_selectRun_id (hids id ho.listed) ho hsel₂
    rfl
  refine ⟨iff_of_false ?_ (not_not.2 ⟨id, run, ho⟩), fun _ => ⟨id, run, ho, hmax, hsel, ?_, hsame⟩⟩
  · rintro ⟨e, he, -⟩
    obtain ⟨-, ⟨hnone, -⟩ | ⟨id', run', -, hok, -⟩⟩ := exec_selectRun halias hchip he
    · exact hnone ⟨id, run, ho⟩
    · cases hok
  · obtain ⟨tr₂, r₂, w₂, h₂⟩ :=
      exec_exists (uses_resolveArtifacts store fs (some id) none none pattern) reliable_lookupCall w
    obtain rfl := hsame tr₂ r₂ w₂ h₂
    exact ⟨tr₂, w₂, h₂⟩

def gpuRun (start : Option Int) : Run :=
  ⟨['0'], some .finished, .active, start, fun k => if k = chipTag then some "gpu".toList else none,
    fun _ => none,
    fun _ => none⟩

/-- Two runs of a chip, the first without a start time. -/
def twoGpuRuns : World :=
  .of ['b'] [] [(['a'], ['0'])] [(sampleRunId '1', gpuRun none), (sampleRunId '2', gpuRun (some 5))]

theorem latest_selected_sample : ∃ tr r w', Exec (Serves Reliable)
    (resolveArtifacts sampleStore twoRuns none (some ['a']) (some "gpu".toList) "*".toList)
    twoGpuRuns tr r w' ∧
    ∃ id run, Offers twoGpuRuns ['a'] "gpu".toList id run ∧ 5 ≤ startOf run ∧
      ∀ tr₂ r₂ w₂, Exec (Serves Reliable)
        (resolveArtifacts sampleStore twoRuns (some id) none none "*".toList)
        twoGpuRuns tr₂ r₂ w₂ → r₂ = r := by
  obtain ⟨tr, r, w', h⟩ := exec_exists (uses_resolveArtifacts sampleStore twoRuns none (some ['a'])
    (some "gpu".toList) "*".toList) reliable_lookupCall twoGpuRuns
  have hsecond : Offers twoGpuRuns ['a'] "gpu".toList (sampleRunId '2') (gpuRun (some 5)) :=
    ⟨by decide, rfl, rfl, rfl, rfl, rfl⟩
  obtain ⟨id, run, ho, hmax, -, -, hsame⟩ :=
    (latest_selected sampleStore twoRuns "*".toList (by decide) (by decide) (by decide) h).2
      ⟨_, _, hsecond⟩
  have hstart : startOf (gpuRun (some 5)) ≤ startOf run := hmax _ _ hsecond
  exact ⟨tr, r, w', h, id, run, ho, hstart, hsame⟩

end Accel.Model
