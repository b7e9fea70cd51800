import AccelProf.Store.Atomicity
import AccelProf.Store.Growth

/-! The two ways to look up a run, by the alias of its experiment and by its id, and when they show
the same. -/

namespace Accel.Model
open Data Program Prog

variable {F : Call → Fate → Prop} {w w₁ w' : World} {tr : List (Step Call Ans Fate World)}
  {id expId aliasName : Str} {run : Run} {u : Bool}

def isUsableRun (run : Run) : Bool := run.status = some .finished && run.lifecycleStage = .active

theorem isUsable_toRef (id : Str) (run : Run) : isUsable (toRef (id, run)) = isUsableRun run := by
  cases hl : run.lifecycleStage <;>
    simp [isUsable, isUsableRun, toRef, RunRef.isFinished, RunRef.isDeleted, hl]

theorem mem_matching {m : Mlflow} {ids : List Str} : (id, run) ∈ m.matching ids ↔
    id ∈ m.runIds ∧ m.runs id = some run ∧ run.experimentId ∈ ids ∧
    run.lifecycleStage = .active := by
  simp only [Mlflow.matching, List.mem_filterMap, Option.bind_eq_some_iff]
  constructor
  · rintro ⟨id', hid, run', hr, h⟩
    split_ifs at h with hc
    cases h
    exact ⟨hid, hr, hc⟩
  · rintro ⟨hid, hr, hc⟩
    exact ⟨id, hid, run, hr, by rw [if_pos hc]⟩

def kept (u : Bool) (runs : List RunRef) : List RunRef := if u then runs else runs.filter isUsable

theorem mem_kept {ref : RunRef} {runs : List RunRef} :
    ref ∈ kept u runs ↔ ref ∈ runs ∧ (u = true ∨ isUsable ref = true) := by
  cases u <;> simp [kept]

/-- A search that the server answers lists the active runs of the experiment, in some order. -/
theorem exec_resolve_alias {r : Except PyExc (List RunRef)}
    (hexp : w.mlflow.experiments aliasName = some expId)
    (h : Exec (Serves Reliable) (resolve aliasName .alias_ u) w tr r w') :
    ∃ runs, runs.Perm ((w.mlflow.matching [expId]).map toRef) ∧ r = .ok (kept u runs) ∧ w' = w := by
  have hfind : ∀ {tr r w'}, Exec (Serves Reliable) (resolveAlias aliasName) w tr r w' →
      ∃ runs, runs.Perm ((w.mlflow.matching [expId]).map toRef) ∧ r = .ok runs ∧ w' = w := by
    intro tr r w' h
    obtain ⟨l, a, w₁, tr₁, ⟨hl, hs⟩, -, h⟩ := h
    obtain rfl : l = .ok := hl
    obtain ⟨rfl, rfl⟩ := hs
    rw [hexp] at h
    obtain ⟨l, a, w₂, tr₂, ⟨hl, hs⟩, -, h⟩ := h
    obtain rfl : l = .ok := hl
    obtain ⟨rfl, pages, rfl, hperm⟩ := hs
    obtain ⟨-, rfl, rfl⟩ := h
    exact ⟨_, by rw [Pages.collect_eq]; exact hperm.map toRef, rfl, rfl⟩
  rcases exec_bind.1 h with ⟨e, he, -⟩ | ⟨runs, tr₁, tr₂, w₁, h₁, ⟨-, rfl, rfl⟩, -⟩
  · obtain ⟨runs, -, hr, -⟩ := hfind he
    cases hr
  · obtain ⟨runs', hperm, hr, rfl⟩ := hfind h₁
    obtain rfl := Except.ok.inj hr
    exact ⟨runs, hperm, rfl, rfl⟩

theorem exec_resolve_unknown {r : Except PyExc (List RunRef)}
    (hexp : w.mlflow.experiments aliasName = none)
    (h : Exec (Serves Reliable) (resolve aliasName .alias_ u) w tr r w') :
    r = .error (.noExperiment aliasName) ∧ w' = w := by
  have hfind : ∀ {tr r w'}, Exec (Serves Reliable) (resolveAlias aliasName) w tr r w' →
      r = .error (.noExperiment aliasName) ∧ w' = w := by
    intro tr r w' h
    obtain ⟨l, a, w₁, tr₁, ⟨hl, hs⟩, -, h⟩ := h
    obtain rfl : l = .ok := hl
    obtain ⟨rfl, rfl⟩ := hs
    rw [hexp] at h
    obtain ⟨-, rfl, rfl⟩ := h
    exact ⟨rfl, rfl⟩
  rcases exec_bind.1 h with ⟨e, he, rfl⟩ | ⟨runs, tr₁, tr₂, w₁, h₁, -, -⟩
  · obtain ⟨hr, rfl⟩ := hfind he
    exact ⟨congrArg Except.error (Except.error.inj hr), rfl⟩
  · cases (hfind h₁).1

/-- `get_run` answers with the run, whatever its status and lifecycle. -/
theorem exec_resolve_id {r : Except PyExc (List RunRef)} (hrun : w.mlflow.runs id = some run)
    (h : Exec (Serves Reliable) (resolve id .id u) w tr r w') :
    r = .ok (kept u [toRef (id, run)]) ∧ w' = w := by
  have hget : ∀ {tr r w'}, Exec (Serves Reliable) (resolveRun id) w tr r w' →
      r = .ok (toRef (id, run)) ∧ w' = w := by
    intro tr r w' h
    obtain ⟨l, a, w₁, tr₁, ⟨hl, hs⟩, -, h⟩ := h
    obtain rfl : l = .ok := hl
    obtain ⟨rfl, ha⟩ := hs
    rw [hrun] at ha
    obtain rfl := ha
    obtain ⟨-, rfl, rfl⟩ := h
    exact ⟨rfl, rfl⟩
  rcases exec_bind.1 h with ⟨e, he, -⟩ | ⟨ref, tr₁, tr₂, w₁, h₁, ⟨-, rfl, rfl⟩, -⟩
  · cases (hget he).1
  · obtain ⟨href, rfl⟩ := hget h₁
    obtain rfl := Except.ok.inj href
    exact ⟨rfl, rfl⟩

def LookupCall : Call → Prop
  | .getExperimentByName _ => True
  | .searchRuns _ => True
  | .getRun _ => True
  | _ => False

theorem reliable_lookupCall (w : World) (c : Call) (hc : LookupCall c) :
    ∃ l a w', Serves Reliable w c l a w' := by
  cases c with
  | getExperimentByName name => exact ⟨.ok, _, w, rfl, rfl, rfl⟩
  | searchRuns ids => exact ⟨.ok, _, w, rfl, rfl, .last _, rfl, .refl _⟩
  | getRun id => exact ⟨.ok, _, w, rfl, rfl, rfl⟩
  | _ => exact hc.elim

theorem uses_resolve (aliasOrId : Str) (by_ : By) (u : Bool) :
    (resolve aliasOrId by_ u).Uses LookupCall := by
  have hget : (request (.getRun aliasOrId)).Uses LookupCall := uses_request trivial
  have hexp : (request (.getExperimentByName aliasOrId)).Uses LookupCall := uses_request trivial
  cases by_ with
  | id =>
    have href : (resolveRun aliasOrId).Uses LookupCall := hget.bind fun _ => trivial
    exact href.bind fun _ => trivial
  | other text => trivial
  | alias_ =>
    refine Uses.bind (Uses.bind (hexp.bind fun found => ?_) fun found => ?_) fun _ => trivial
    · cases found <;> trivial
    · cases found with
      | none => trivial
      | some expId => exact (uses_request trivial).bind fun _ => trivial

section History

/-- The run is in the list and belongs to the experiment of its alias. -/
def Filed (m : Mlflow) (id : Str) (run : Run) : Prop :=
  id ∈ m.runIds ∧ ∃ a, run.tags aliasTag = some a ∧ m.experiments a = some run.experimentId

def Indexed (m : Mlflow) : Prop := ∀ id run, m.runs id = some run → Filed m id run

theorem Filed.remains (h : Filed w.mlflow id run) (hw : Remains w w') : Filed w'.mlflow id run := by
  obtain ⟨hid, a, ha, he⟩ := h
  exact ⟨hw.listed id hid, a, ha, hw.experiments a _ he⟩

/-- A write that leaves alias and experiment of a run alone. -/
def KeepsAlias (f : Run → Run) : Prop :=
  ∀ run, (f run).tags aliasTag = run.tags aliasTag ∧ (f run).experimentId = run.experimentId

theorem OwnCall.keepsAlias {c : Call} {id' : Str} {f : Run → Run} (hc : OwnCall id c)
    (hw : writeOf c = some (id', f)) : KeepsAlias f := by
  cases c <;> simp only [writeOf, Option.some.injEq, Prod.mk.injEq, reduceCtorEq] at hw
  case setTag i k v =>
    obtain ⟨-, rfl⟩ := hw
    exact fun run => ⟨Function.update_of_ne (Ne.symm hc.2) .., rfl⟩
  all_goals
    obtain ⟨-, rfl⟩ := hw
    exact fun run => ⟨rfl, rfl⟩

theorem Indexed.step {c : Call} (hi : Indexed w.mlflow) (hc : OwnCall id c)
    (h : MlflowStep w w' c) :
    Indexed w'.mlflow := by
  have hrem := h.remains
  cases h with
  | same h => rwa [h]
  | register hnone h => exact hc.elim
  | create hfresh h => exact hc.elim
  | @write _ id' f run hw hrun h =>
    intro i run' hr
    have hruns : w'.mlflow.runs = Function.update w.mlflow.runs id' (some (f run)) := by rw [h]; rfl
    rw [hruns] at hr
    by_cases hi' : i = id'
    · subst hi'
      rw [Function.update_self] at hr
      obtain rfl := Option.some.inj hr
      obtain ⟨hid, a, ha, he⟩ := (hi i run hrun).remains hrem
      obtain ⟨htag, hexp⟩ := hc.keepsAlias hw run
      exact ⟨hid, a, htag.trans ha, by rw [hexp, he]⟩
    · rw [Function.update_of_ne hi'] at hr
      exact (hi i run' hr).remains hrem

theorem exec_own_indexed {α : Type} {p : Action α} {r : Except PyExc α} (hp : p.Uses (OwnCall id))
    (h : Exec (Serves F) p w tr r w') (hi : Indexed w.mlflow) : Indexed w'.mlflow :=
  (Exec.of_uses (P := fun w => Indexed w.mlflow) hp
    (fun _ _ _ _ _ hc hw hs => hw.step hc hs.mlflowStep) h hi).1

theorem newRun_alias (i : Identity) (start : Option Int) :
    (newRun expId (creationTags i) (runName i) start).tags aliasTag = some i.aliasName := rfl

/-- A new run is filed under the experiment of its alias. -/
theorem exec_createRun_indexed {i : Identity} {r : Except PyExc Str} (hi : Indexed w.mlflow)
    (h : Exec (Serves F) (createRun i) w tr r w') : Indexed w'.mlflow := by
  have hrem := exec_remains h
  intro i' run hr
  rcases (exec_createRun h).2 with ⟨hreg, -⟩ | ⟨id, expId, start, hc, -⟩
  · rw [hreg.runs] at hr
    exact (hi i' run hr).remains hrem
  · rw [hc.runs] at hr
    by_cases hii : i' = id
    · subst hii
      rw [Function.update_self] at hr
      obtain rfl := Option.some.inj hr
      exact ⟨by simp [hc.runIds], i.aliasName, newRun_alias i start, hc.experiment⟩
    · rw [Function.update_of_ne hii] at hr
      exact (hi i' run hr).remains hrem

theorem exec_log_indexed {store : Store} {fs : LocalFs} {args : LogArgs} {r : Except PyExc Str}
    (hi : Indexed w.mlflow) (h : Exec (Serves F) (log store fs args) w tr r w') :
    Indexed w'.mlflow := by
  rcases exec_log h with ⟨-, rfl, -⟩ | ⟨e, -, he⟩ | ⟨id, tr₁, w₁, tr₂, hcreate, -, hbody⟩
  · exact hi
  · exact exec_createRun_indexed hi he
  have hi₁ := exec_createRun_indexed hi hcreate
  rcases hbody with ⟨-, -, hbody⟩ | ⟨e, w₂, tr₃, -, -, hbody, hclean⟩
  · exact exec_own_indexed (uses_uploadAndFinalize_own ..) hbody hi₁
  · exact exec_own_indexed (uses_cleanUp_own ..) hclean
      (exec_own_indexed (uses_uploadAndFinalize_own ..) hbody hi₁)

/-- An operation carried out alone, whatever happens to its calls. -/
inductive Operates (F : Call → Fate → Prop) : World → World → Prop
  | log {store : Store} {fs : LocalFs} {args : LogArgs} {w w' : World}
      {tr : List (Step Call Ans Fate World)} {r : Except PyExc Str}
      (h : Exec (Serves F) (log store fs args) w tr r w') : Operates F w w'
  | createRun {i : Identity} {w w' : World} {tr : List (Step Call Ans Fate World)}
      {r : Except PyExc Str} (h : Exec (Serves F) (createRun i) w tr r w') : Operates F w w'
  | failRun {id : Str} {w w' : World} {tr : List (Step Call Ans Fate World)} {r : Except PyExc Unit}
      (h : Exec (Serves F) (failRun id) w tr r w') : Operates F w w'
  | purge {ref : RunRef} {deleteMlflowRun : Bool} {w w' : World}
      {tr : List (Step Call Ans Fate World)} {r : Except PyExc ℕ}
      (h : Exec (Serves F) (purge ref deleteMlflowRun) w tr r w') : Operates F w w'
  | softDelete {id : Str} {w w' : World} {tr : List (Step Call Ans Fate World)}
      {r : Except PyExc Unit} (h : Exec (Serves F) (request (.deleteRun id)) w tr r w') :
      Operates F w w'

abbrev History (F : Call → Fate → Prop) : World → World → Prop := Relation.ReflTransGen (Operates F)

theorem Operates.indexed (h : Operates F w w') (hi : Indexed w.mlflow) : Indexed w'.mlflow := by
  cases h with
  | log h => exact exec_log_indexed hi h
  | createRun h => exact exec_createRun_indexed hi h
  | failRun h => exact exec_own_indexed (uses_failRun _) h hi
  | purge h => exact exec_own_indexed (uses_purge ..) h hi
  | @softDelete id _ _ _ _ h =>
    exact exec_own_indexed (uses_request (c := .deleteRun id) (S := OwnCall id) rfl) h hi

theorem History.indexed (h : History F w w') (hi : Indexed w.mlflow) : Indexed w'.mlflow := by
  induction h with
  | refl => exact hi
  | tail _ hop ih => exact hop.indexed ih

end History

section Agree

def Lists (id : Str) (run : Run) (r : Except PyExc (List RunRef)) : Prop :=
  ∃ refs, r = .ok refs ∧ toRef (id, run) ∈ refs

def Shows (id : Str) (run : Run) (r : Except PyExc (List RunRef)) : Prop :=
  r = .ok [toRef (id, run)]

theorem lists_iff (hi : Indexed w.mlflow) (hrun : w.mlflow.runs id = some run)
    (ha : run.tags aliasTag = some aliasName) {r : Except PyExc (List RunRef)}
    (h : Exec (Serves Reliable) (resolve aliasName .alias_ u) w tr r w') :
    Lists id run r ↔ run.lifecycleStage = .active ∧ (u = true ∨ isUsableRun run = true) := by
  obtain ⟨hid, a, ha', hexp⟩ := hi id run hrun
  obtain rfl := Option.some.inj (ha'.symm.trans ha)
  obtain ⟨runs, hperm, rfl, -⟩ := exec_resolve_alias hexp h
  have hmem : toRef (id, run) ∈ runs ↔ run.lifecycleStage = .active := by
    rw [hperm.mem_iff, List.mem_map]
    constructor
    · rintro ⟨⟨id', run'⟩, hm, href⟩
      obtain rfl : id' = id := congrArg RunRef.runId href
      obtain ⟨-, hr, -, hl⟩ := mem_matching.1 hm
      obtain rfl := Option.some.inj (hr.symm.trans hrun)
      exact hl
    · exact fun hl => ⟨_, mem_matching.2 ⟨hid, hrun, List.mem_singleton_self _, hl⟩, rfl⟩
  rw [Lists]
  simp only [Except.ok.injEq, exists_eq_left', mem_kept, hmem, isUsable_toRef]

theorem shows_iff (hrun : w.mlflow.runs id = some run) {r : Except PyExc (List RunRef)}
    (h : Exec (Serves Reliable) (resolve id .id u) w tr r w') :
    Shows id run r ↔ u = true ∨ isUsableRun run = true := by
  obtain ⟨rfl, -⟩ := exec_resolve_id hrun h
  rw [Shows, ← isUsable_toRef id]
  cases u with
  | true => simp [kept]
  | false => cases hu : isUsable (toRef (id, run)) <;> simp [kept, hu]

/-- Both lookups show the run, or neither does, and they show it when everything is asked for or the
run is usable. -/
def Agrees (w : World) (aliasName id : Str) (run : Run) (u : Bool) : Prop :=
  ∀ tr₁ r₁ w₁ tr₂ r₂ w₂, Exec (Serves Reliable) (resolve aliasName .alias_ u) w tr₁ r₁ w₁ →
    Exec (Serves Reliable) (resolve id .id u) w tr₂ r₂ w₂ →
    (Lists id run r₁ ↔ Shows id run r₂) ∧
    (Shows id run r₂ ↔ u = true ∨ run.status = some .finished ∧ run.lifecycleStage = .active)

/-- After any history, the lookups by alias and by id agree on a run exactly when only usable runs
are asked for or the run is not soft-deleted. -/
theorem lookups_agree_iff {w₀ : World} (hempty : ∀ id, w₀.mlflow.runs id = none)
    (h : History F w₀ w) (hrun : w.mlflow.runs id = some run)
    (ha : run.tags aliasTag = some aliasName) :
    Agrees w aliasName id run u ↔ u = false ∨ run.lifecycleStage ≠ .deleted := by
  have hi : Indexed w.mlflow := h.indexed fun i run' hr => by
    rw [hempty] at hr
    cases hr
  have husable : isUsableRun run = true ↔
      run.status = some .finished ∧ run.lifecycleStage = .active := by
    simp [isUsableRun]
  constructor
  · intro hagree
    obtain ⟨tr₁, r₁, w₁, h₁⟩ := exec_exists (uses_resolve aliasName .alias_ u) reliable_lookupCall w
    obtain ⟨tr₂, r₂, w₂, h₂⟩ := exec_exists (uses_resolve id .id u) reliable_lookupCall w
    have hiff := (hagree _ _ _ _ _ _ h₁ h₂).1
    rw [lists_iff hi hrun ha h₁, shows_iff hrun h₂] at hiff
    cases u with
    | false => exact .inl rfl
    | true =>
      have hact : run.lifecycleStage = .active := (hiff.2 (.inl rfl)).1
      exact .inr (by simp [hact])
  · intro hcond tr₁ r₁ w₁ tr₂ r₂ w₂ h₁ h₂
    rw [lists_iff hi hrun ha h₁, shows_iff hrun h₂, husable]
    refine ⟨and_iff_right_of_imp fun hu => ?_, Iff.rfl⟩
    rcases hcond with rfl | hl
    · exact (hu.resolve_left (by simp)).2
    · cases hs : run.lifecycleStage with
      | active => rfl
      | deleted => exact absurd hs hl

section Retired

def sampleCreated : World := (simulate (fun _ => .ok) (createRun sampleArgs.identity) noRuns).2.2

/-- A run was created and then soft-deleted. -/
def sampleRetired : World :=
  (simulate (fun _ => .ok) (request (.deleteRun (sampleRunId '0'))) sampleCreated).2.2

theorem history_sampleRetired : History Lossless noRuns sampleRetired :=
  .tail (.single (.createRun (exec_simulate (createRun sampleArgs.identity) noRuns
    (lossless_serve (fun _ => .ok) fun _ _ => by simp))))
    (.softDelete (exec_simulate (request (.deleteRun (sampleRunId '0'))) sampleCreated
      (lossless_serve (fun _ => .ok) fun _ _ => by simp)))

theorem sampleRetired_run : ∃ run, sampleRetired.mlflow.runs (sampleRunId '0') = some run ∧
    run.tags aliasTag = some ['a'] ∧ run.lifecycleStage = .deleted := by
  have h : ((sampleRetired.mlflow.runs (sampleRunId '0')).any fun run =>
      run.tags aliasTag = some ['a'] ∧ run.lifecycleStage = .deleted) = true := by decide +kernel
  simp only [Option.any_eq_true, decide_eq_true_eq] at h
  exact h

/-- Asked for everything, the lookup by id shows the soft-deleted run and the one by alias does
not. -/
theorem lookups_disagree : ∃ run, sampleRetired.mlflow.runs (sampleRunId '0') = some run ∧
    run.tags aliasTag = some ['a'] ∧ History Lossless noRuns sampleRetired ∧
    ¬ Agrees sampleRetired ['a'] (sampleRunId '0') run true := by
  obtain ⟨run, hrun, ha, hl⟩ := sampleRetired_run
  have hi : Indexed sampleRetired.mlflow :=
    history_sampleRetired.indexed fun i run' hr => by cases hr
  refine ⟨run, hrun, ha, history_sampleRetired, fun hagree => ?_⟩
  obtain ⟨tr₁, r₁, w₁, h₁⟩ := exec_exists (uses_resolve ['a'] .alias_ true) reliable_lookupCall
    sampleRetired
  obtain ⟨tr₂, r₂, w₂, h₂⟩ :=
    exec_exists (uses_resolve (sampleRunId '0') .id true) reliable_lookupCall
    sampleRetired
  have hiff := (hagree _ _ _ _ _ _ h₁ h₂).1
  rw [lists_iff hi hrun ha h₁, shows_iff hrun h₂, hl] at hiff
  cases (hiff.2 (.inl rfl)).1

/-- Neither lookup shows that run to a consumer. -/
theorem lookups_agree_iff_usable : ∃ run, sampleRetired.mlflow.runs (sampleRunId '0') = some run ∧
    Agrees sampleRetired ['a'] (sampleRunId '0') run false := by
  obtain ⟨run, hrun, ha, -⟩ := sampleRetired_run
  exact ⟨run, hrun, (lookups_agree_iff (fun _ => rfl) history_sampleRetired hrun ha).2 (.inl rfl)⟩

end Retired

end Agree

end Accel.Model
