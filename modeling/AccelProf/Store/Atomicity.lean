import AccelProf.Spec.Reference
import AccelProf.Store.Failure

/-! `log` is all or nothing when a call that raises has had no effect. -/

namespace Accel.Model
open Data Program Prog

variable {F : Call → Fate → Prop} {w w₁ w₂ w' : World} {tr : List (Step Call Ans Fate World)}
  {store : Store} {fs : LocalFs} {args : LogArgs} {id : Str} {run : Run}

def IsFinished (id : Str) (w : World) : Prop :=
  ∃ run, w.mlflow.runs id = some run ∧ run.status = some .finished

theorem isFinished_iff : IsFinished id w ↔ (w.mlflow.runs id).bind Run.status = some .finished := by
  simp [IsFinished, Option.bind_eq_some_iff]

instance (id : Str) (w : World) : Decidable (IsFinished id w) := decidable_of_iff' _ isFinished_iff

/-- Every object outside the run's prefix and every other run is as before. -/
structure Untouched (store : Store) (args : LogArgs) (id : Str) (w w' : World) : Prop where
  buckets : ∀ b, b ≠ store.traceBucket.name → w'.s3 b = w.s3 b
  objects : ∀ e : Key × Obj, ¬ args.pre id <+: e.1 →
    (e ∈ (w'.s3 store.traceBucket.name).entries ↔ e ∈ (w.s3 store.traceBucket.name).entries)
  runs : ∀ i, i ≠ id → w'.mlflow.runs i = w.mlflow.runs i
  runIds : w'.mlflow.runIds = w.mlflow.runIds ++ [id]
  experiments : ∀ n, n ≠ args.identity.aliasName → w'.mlflow.experiments n = w.mlflow.experiments n

/-- The run is complete, and besides its planned objects nothing is new. -/
structure Logged (store : Store) (fs : LocalFs) (args : LogArgs) (id : Str) (w w' : World) :
    Prop where
  untouched : Untouched store args id w w'
  record : ∃ expId start, w'.mlflow.experiments args.identity.aliasName = some expId ∧
    w'.mlflow.runs id = some ((args.record store id
      (newRun expId (creationTags args.identity) (runName args.identity) start)).setStatus
        .finished)
  content : ∃ run, w'.mlflow.runs id = some run ∧ run.status = some .finished ∧
    run.lifecycleStage = .active ∧
    HasContent (args.uri store id) args.metrics args.params (store.withNamespace args.tags) run
  artifacts : ∃ planned, args.plan fs id = .ok planned ∧
    (∀ f ∈ planned, Holds fs store.traceBucket.name f.1 f.2 w') ∧
    ∀ e : Key × Obj, e.1 ∉ planned.map Prod.snd →
      (e ∈ (w'.s3 store.traceBucket.name).entries ↔ e ∈ (w.s3 store.traceBucket.name).entries)

theorem Working.run_eq (h : Working store args id run w w') : ∃ run',
    w'.mlflow.runs id = some run' ∧ run'.status = run.status ∧
      run'.lifecycleStage = run.lifecycleStage := by
  obtain ⟨run', ht, hs, hl⟩ := h
  exact ⟨run', by rw [ht.mlflow, World.withRun_runs_self], hs, hl⟩

theorem Working.not_finished (h : Working store args id run w w')
    (hrun : run.status = some .running) : ¬ IsFinished id w' := by
  rintro ⟨run', h', hs'⟩
  obtain ⟨run'', h'', hs'', -⟩ := h.run_eq
  cases h'.symm.trans h''
  rw [hrun] at hs''
  cases hs'.symm.trans hs''

theorem Created.untouched {expId : Str} {start : Option Int}
    (h : Created args.identity id expId start w w₁) : Untouched store args id w w₁ where
  buckets := fun b _ => congrFun h.s3 b
  objects := fun e _ => by rw [h.s3]
  runs := fun i hi => by rw [h.runs, Function.update_of_ne hi]
  runIds := h.runIds
  experiments := h.experiments

theorem Untouched.touches {S : Key → Prop} (h : Untouched store args id w w₁) (run : Run)
    (ht : Touches store.traceBucket.name S (w₁.withRun id run) w')
    (hS : ∀ k, S k → args.pre id <+: k) : Untouched store args id w w' where
  buckets := fun b hb => (ht.others b hb).trans (h.buckets b hb)
  objects := fun e he => (ht.keys e fun hs => he (hS _ hs)).trans (h.objects e he)
  runs := fun i hi => by rw [ht.mlflow, World.withRun_runs_ne hi, h.runs i hi]
  runIds := by rw [ht.mlflow]; exact h.runIds
  experiments := fun n hn => by rw [ht.mlflow]; exact h.experiments n hn

theorem Untouched.withRun (h : Untouched store args id w w₁) (run : Run) :
    Untouched store args id w (w₁.withRun id run) :=
  h.touches (S := fun _ => False) run (.refl _) fun _ hs => hs.elim

/-- A status is set on the run that exists, or nothing happens. -/
theorem serves_setTerminated {s : RunStatus} {l : Fate} {a : Except PyExc Unit}
    (hrun : w.mlflow.runs id = some run) (h : Serves F w (.setTerminated id s) l a w') :
    (w' = w ∧ ∃ e, l = .fail e ∧ a = .error (.service e)) ∨
      (w' = w.withRun id (run.setStatus s) ∧
        (l = .ok ∧ a = .ok () ∨ ∃ e, l = .lost e ∧ a = .error (.service e))) := by
  have hset : ∀ {a'}, WritesRun w id (Run.setStatus s) a' w' →
      a' = .ok () ∧ w' = w.withRun id (run.setStatus s) := fun h' => by
    rwa [WritesRun, hrun] at h'
  obtain ⟨-, h⟩ := h
  cases l with
  | ok => exact .inr ⟨(hset h).2, .inl ⟨rfl, (hset h).1⟩⟩
  | perKey errs => exact h.elim
  | fail e => exact .inl ⟨h.2, e, rfl, h.1⟩
  | lost e =>
    obtain ⟨ha, a', h'⟩ := h
    exact .inr ⟨(hset h').2, .inr ⟨e, rfl, ha⟩⟩

theorem deletePrefix_mlflow {uri : Str} {r : Except PyExc ℕ}
    (h : Exec (Serves F) (deletePrefix uri) w tr r w') :
    w'.mlflow = w.mlflow ∧ ∀ st ∈ tr, st.after.mlflow = w.mlflow := by
  have ⟨h', htr⟩ := Exec.of_uses (S := DeleteCall) (P := fun w' => w'.mlflow = w.mlflow)
    (uses_deletePrefix uri) (fun w₁ c l a w₂ hc hw hs => ?_) h rfl
  · exact ⟨h', fun st hst => (htr st hst).2⟩
  · refine Eq.trans ?_ hw
    cases c with
    | listObjects b pre => rw [(serves_listObjects hs).1]
    | deleteObjects b keys =>
      obtain ⟨removed, -, rfl, -⟩ := serves_deleteObjects hs
      rfl
    | _ => exact hc.elim

theorem parse_uri (halias : safeIdBody args.identity.aliasName = true) (hid : isRunId id = true) :
    parseS3Uri (args.uri store id) = .ok ⟨store.traceBucket.name, args.pre id⟩ :=
  parse_artifactsUri (plain_of_safeIdBody halias).2 (plain_of_isRunId hid) _
    (plain_of_safeIdBody halias).1

theorem pre_ne_nil (args : LogArgs) (id : Str) : args.pre id ≠ [] := by
  simp [LogArgs.pre, runPrefix]

theorem exec_body_error (hF : ∀ e, ¬ F (.setTerminated id .finished) (.lost e)) {e : PyExc}
    (hrun : w.mlflow.runs id = some run)
    (h : Exec (Serves F) (uploadAndFinalize store fs args id) w tr (.error e) w') :
    Working store args id run w w' ∧ ∀ st ∈ tr, Working store args id run w st.after := by
  rcases exec_uploadAndFinalize hrun h with ⟨-, hw, hpts⟩ | ⟨planned, tr₀, l, w₁, hr, rfl, hpts, hs⟩
  · exact ⟨hw, fun st hst => (hpts st hst).2⟩
  have hw₁ := ready_working hr
  obtain ⟨run', hrun', -⟩ := hw₁.run_eq
  rcases serves_setTerminated hrun' hs with ⟨rfl, -⟩ | ⟨-, ⟨-, ha⟩ | ⟨e', rfl, -⟩⟩
  · refine ⟨hw₁, fun st hst => ?_⟩
    rcases List.mem_append.1 hst with hst | hst
    · exact (hpts st hst).2
    · rw [List.mem_singleton.1 hst]
      exact hw₁
  · cases ha
  · exact absurd hs.1 (hF e')

/-- The body of `log` that returns has set the status in a state where all else is done. -/
theorem exec_body_ok (hrun : w.mlflow.runs id = some run)
    (h : Exec (Serves F) (uploadAndFinalize store fs args id) w tr (.ok ()) w') :
    ∃ planned w₁, Ready store fs args id planned run w w₁ ∧
      w' = w₁.withRun id ((args.record store id run).setStatus .finished) := by
  rcases exec_uploadAndFinalize hrun h with ⟨⟨e, he⟩, -⟩ | ⟨planned, tr₀, l, w₁, hr, -, -, hs⟩
  · cases he
  have hrun₁ : w₁.mlflow.runs id = some (args.record store id run) := by
    rw [hr.touches.mlflow, World.withRun_runs_self]
  rcases serves_setTerminated hrun₁ hs with ⟨-, e, -, he⟩ | ⟨hw, -⟩
  · cases he
  · exact ⟨planned, w₁, hr, hw⟩

theorem logged_of_ready {planned : List (Str × Key)} {expId : Str} {start : Option Int}
    (hc : Created args.identity id expId start w w₁)
    (hr : Ready store fs args id planned
      (newRun expId (creationTags args.identity) (runName args.identity) start) w₁ w₂) :
    Logged store fs args id w (w₂.withRun id ((args.record store id
      (newRun expId (creationTags args.identity) (runName args.identity) start)).setStatus
        .finished)) := by
  have hpre := (planArtifacts_ok hr.plan).2
  have hkeys : ∀ k, k ∈ planned.map Prod.snd → args.pre id <+: k := fun k hk => by
    obtain ⟨f, hf, rfl⟩ := List.mem_map.1 hk
    exact hpre f hf
  refine ⟨(hc.untouched.touches _ hr.touches hkeys).withRun _, ⟨expId, start, ?_,
    World.withRun_runs_self ..⟩, ⟨_, World.withRun_runs_self .., rfl, ?_, ?_⟩,
    planned, hr.plan, hr.holds, fun e he => ?_⟩
  · change w₂.mlflow.experiments _ = _
    rw [hr.touches.mlflow]
    exact hc.experiment
  · exact recorded_lifecycleStage (args.uri store id) args.metrics args.params
      (store.withNamespace args.tags) _
  · have := hasContent_recorded (args.uri store id) args.params hr.valid
      (newRun expId (creationTags args.identity) (runName args.identity) start)
    exact ⟨this.tags, this.params, this.metrics, this.artifactsUri⟩
  · rw [← hc.s3]
    exact hr.touches.keys e he

/-- The clean-up of a run whose status was not set: nothing outside the run changes, the run is not
finished at any point, and when every call of it succeeds the run is failed and has no object. -/
theorem exec_cleanUp_untouched (halias : safeIdBody args.identity.aliasName = true)
    (hid : isRunId id = true) (hw : Untouched store args id w w₁)
    (hrun : w₁.mlflow.runs id = some run) (hst : run.status ≠ some .finished)
    (h : Exec (Serves F) (cleanUp (args.uri store id) id) w₁ tr (.ok ()) w') :
    Untouched store args id w w' ∧ (∀ st ∈ tr, ¬ IsFinished id st.after) ∧ ¬ IsFinished id w' ∧
      ((∀ st ∈ tr, st.label = .ok) → (∀ k ∈ w'.s3 store.traceBucket.name, ¬ args.pre id <+: k) ∧
        ∃ run', w'.mlflow.runs id = some run' ∧ run'.status = some .failed) := by
  obtain ⟨-, tr₁, rd, w₂, l, a, hd, rfl, hs⟩ := exec_cleanUp h
  obtain ⟨hml, hpts⟩ := deletePrefix_mlflow hd
  obtain ⟨removed, hsub, rfl, hok, -, -⟩ := exec_deletePrefix (parse_uri halias hid)
    (pre_ne_nil args id) hd
  have hun : Untouched store args id w (w₁.deleteKeys store.traceBucket.name removed) :=
    hw.touches run (by
      rw [World.withRun_self hrun]
      exact touches_deleteKeys (S := (args.pre id <+: ·)) fun k hk => (hsub k hk).2) fun _ h => h
  have hnot : ∀ {w₂ : World}, w₂.mlflow = w₁.mlflow → ¬ IsFinished id w₂ := by
    rintro w₂ h₂ ⟨run', hr', hs'⟩
    rw [h₂, hrun] at hr'
    cases hr'
    exact hst hs'
  have hend : Untouched store args id w w' ∧ ¬ IsFinished id w' ∧ (l = .ok →
      w'.s3 = (w₁.deleteKeys store.traceBucket.name removed).s3 ∧
      ∃ run', w'.mlflow.runs id = some run' ∧ run'.status = some .failed) := by
    rcases serves_setTerminated (w := w₁.deleteKeys store.traceBucket.name removed) hrun hs with
      ⟨rfl, e, rfl, -⟩ | ⟨rfl, -⟩
    · exact ⟨hun, hnot rfl, by simp⟩
    · refine ⟨hun.withRun _, ?_, fun _ => ⟨rfl, _, World.withRun_runs_self .., rfl⟩⟩
      rintro ⟨run', hr', hs'⟩
      rw [World.withRun_runs_self] at hr'
      cases hr'
      cases hs'
  refine ⟨hend.1, fun st hst => ?_, hend.2.1, fun hall => ?_⟩
  · rcases List.mem_append.1 hst with hst | hst
    · exact hnot (hpts st hst)
    · rw [List.mem_singleton.1 hst]
      exact hend.2.1
  · obtain ⟨hs3, hfail⟩ := hend.2.2 (hall ⟨.setTerminated id .failed, l, a, w'⟩ (by simp))
    -- without a failure the same steps are a reliable execution, which deletes everything
    have hd' : Exec (Serves Reliable) _ _ _ _ _ := hd.restrict fun w st hst hs =>
      ⟨hall st (List.mem_append_left _ hst), hs.2⟩
    obtain ⟨-, -, -, -, hn, -⟩ := exec_deletePrefix (parse_uri halias hid) (pre_ne_nil args id) hd'
    obtain ⟨n, hn⟩ := hn ⟨fun _ _ _ h => h, fun _ _ _ h => h⟩ fun _ _ _ h => h
    refine ⟨fun k hk hpk => ?_, hfail⟩
    rw [hs3] at hk
    obtain ⟨hk, hkr⟩ := World.mem_deleteKeys.1 hk
    rw [(hok n hn).1] at hkr
    exact hkr (Bucket.mem_under_keys.2 ⟨hk, hpk⟩)

/-- `log` stored nothing: it refused its arguments, or a call of `create_run` failed. -/
def Refused (store : Store) (args : LogArgs) (w : World) (tr : List (Step Call Ans Fate World))
    (r : Except PyExc Str) (w' : World) : Prop :=
  ∃ e, r = .error e ∧ Registers args.identity.aliasName w w' ∧
    (tr = [] ∧ (validateIdentity args.identity = .error e ∨
        validateContent args.metrics (store.withNamespace args.tags) = .error e) ∨
      Exec (Serves Lossless) (createRun args.identity) w tr (.error e) w' ∧
        ∃ st ∈ tr, MlflowCall st.call ∧ FailsWith e st)

/-- No call of an execution of `log` raised, where a verified upload counts as one call. -/
def Unfailing (store : Store) (fs : LocalFs) (args : LogArgs) (id : Str) (w : World)
    (tr : List (Step Call Ans Fate World)) : Prop :=
  ∃ tr₁ w₁ tr₂, tr = tr₁ ++ tr₂ ∧
    Exec (Serves Lossless) (createRun args.identity) w tr₁ (.ok id) w₁ ∧
    (∀ st ∈ tr₁, Succeeds st) ∧ BodyRuns store fs args id w₁ tr₂

/-- A step after `create_run` failed: its exception is raised after the clean-up. The run is
finished at no point and nothing outside it changes; a clean-up that succeeds leaves it failed and
without objects. -/
structure RolledBack (store : Store) (fs : LocalFs) (args : LogArgs) (id : Str) (w : World)
    (tr : List (Step Call Ans Fate World)) (r : Except PyExc Str) (w' : World) : Prop where
  fresh : w.mlflow.runs id = none
  phases : ∃ e tr₁ w₁ tr₂ w₂ tr₃, r = .error e ∧ tr = tr₁ ++ (tr₂ ++ tr₃) ∧
    Exec (Serves Lossless) (createRun args.identity) w tr₁ (.ok id) w₁ ∧
    Exec (Serves Lossless) (uploadAndFinalize store fs args id) w₁ tr₂ (.error e) w₂ ∧
    BodyFails store fs args id w₁ e tr₂ w₂ ∧
    Exec (Serves Lossless) (cleanUp (args.uri store id) id) w₂ tr₃ (.ok ()) w' ∧
    ((∀ st ∈ tr₃, st.label = .ok) → (∀ k ∈ w'.s3 store.traceBucket.name, ¬ args.pre id <+: k) ∧
      ∃ run, w'.mlflow.runs id = some run ∧ run.status = some .failed)
  untouched : Untouched store args id w w'
  neverFinished : ∀ st ∈ tr, ¬ IsFinished id st.after
  notFinished : ¬ IsFinished id w'

theorem exec_log_ends (halias : safeIdBody args.identity.aliasName = true)
    {r : Except PyExc Str} (h : Exec (Serves Lossless) (log store fs args) w tr r w') :
    Refused store args w tr r w' ∨
      (∃ id, r = .ok id ∧ w.mlflow.runs id = none ∧ Logged store fs args id w w' ∧
        Unfailing store fs args id w tr) ∨
      ∃ id, RolledBack store fs args id w tr r w' := by
  have hlost : ∀ {c : Call} {e : ServiceError}, Lossless c (.lost e) →
      ∃ path b key body hex, c = .uploadFile path b key body hex := fun h => h _ rfl
  rcases exec_log h with
    ⟨htr, rfl, e, hr, he⟩ | ⟨e, hr, he⟩ | ⟨id, tr₁, w₁, tr₂, hcreate, hvalid, hbody⟩
  · exact .inl ⟨e, hr, .refl _, .inl ⟨htr, he⟩⟩
  · rcases (exec_createRun he).2 with ⟨hreg, -⟩ | ⟨id, expId, start, -, h' | ⟨_, _, _, hF, -⟩⟩
    · obtain ⟨⟨a, ha⟩, -⟩ | ⟨e', he', hcause⟩ := exec_createRun_explained he
      · cases ha
      · cases he'
        exact .inl ⟨e, hr, hreg, .inr ⟨he, hcause⟩⟩
    · cases h'
    · obtain ⟨_, _, _, _, _, hc⟩ := hlost hF
      cases hc
  -- from here on the run exists
  obtain ⟨hpts₁, -⟩ := exec_createRun hcreate
  obtain ⟨expId, start, hc⟩ := exec_createRun_ok hcreate
  rcases hbody with ⟨rfl, rfl, hbody⟩ | ⟨e, w₂, tr₃, rfl, rfl, hbody, hclean⟩
  · obtain ⟨planned, w₂, hr, rfl⟩ := exec_body_ok hc.run hbody
    obtain ⟨-, hruns⟩ | ⟨e, he, -⟩ := exec_body_outcome hc.run hvalid hbody
    · exact .inr (.inl ⟨id, rfl, hc.fresh, logged_of_ready hc hr, tr₁, w₁, tr₂, rfl, hcreate,
        (exec_createRun_explained hcreate).succeeds, hruns⟩)
    · cases he
  obtain ⟨ho, -⟩ | ⟨e', he', hfails⟩ := exec_body_outcome hc.run hvalid hbody
  · cases ho
  cases he'
  obtain ⟨hw₂, hpts₂⟩ := exec_body_error (fun e hF => by
    obtain ⟨_, _, _, _, _, hx⟩ := hlost hF
    cases hx) hc.run hbody
  obtain ⟨run, hrun, hs, -⟩ := hw₂.run_eq
  have hun : Untouched store args id w w₂ := by
    obtain ⟨run', ht, -⟩ := hw₂
    exact hc.untouched.touches run' ht fun _ h => h
  obtain ⟨hun', hpts₃, hnot, hok⟩ := exec_cleanUp_untouched halias hc.shape hun hrun
    (by rw [hs]; exact fun h => by cases h) hclean
  refine .inr (.inr ⟨id, hc.fresh,
    ⟨e, tr₁, w₁, tr₂, w₂, tr₃, rfl, rfl, hcreate, hbody, hfails, hclean, hok⟩,
    hun', fun st hst => ?_, hnot⟩)
  -- never FINISHED: not while it is created, in the body or in the clean-up
  rcases List.mem_append.1 hst with hst | hst
  · rcases (hpts₁ st hst).2 with hreg | hst
    · rintro ⟨run', hr', -⟩
      rw [hreg.runs, hc.fresh] at hr'
      cases hr'
    · rw [hst]
      rintro ⟨run', hr', hs'⟩
      cases hc.run.symm.trans hr'
      cases hs'
  · rcases List.mem_append.1 hst with hst | hst
    · exact (hpts₂ st hst).not_finished rfl
    · exact hpts₃ st hst

/-- An external call of an execution raises `e`: a call to MLflow, or the verified upload of a
planned file. -/
def CallRaises (store : Store) (fs : LocalFs) (args : LogArgs)
    (tr : List (Step Call Ans Fate World)) (e : PyExc) : Prop :=
  (∃ st ∈ tr, MlflowCall st.call ∧ FailsWith e st) ∨
    ∃ id planned, args.plan fs id = .ok planned ∧ ∃ f ∈ planned, ∃ before seg after u u',
      tr = before ++ (seg ++ after) ∧
      Exec (Serves Lossless) (uploadVerified fs f.1 store.traceBucket.name f.2) u seg (.error e) u'

theorem BodyFails.callRaises {e : PyExc} (h : BodyFails store fs args id w e tr w')
    (pre post : List (Step Call Ans Fate World)) :
    args.plan fs id = .error e ∨ CallRaises store fs args (pre ++ (tr ++ post)) e := by
  cases h with
  | plan h => exact .inl h
  | upload hplan h =>
    obtain ⟨f, hf, before, seg, u, rfl, hseg⟩ := h.raises rfl
    exact .inr (.inr ⟨id, _, hplan, f, hf, pre ++ before, seg, post, u, _, by simp, hseg⟩)
  | @finalize planned tr₁ before last w₁ w' hplan h hcalls hbefore hlast =>
    exact .inr (.inl ⟨last, by simp, (hcalls last (by simp)).mlflow, hlast⟩)

def sampleStore : Store := ⟨sampleBucket, none, none⟩

/-- A machine with one file, `/t`, which is empty. -/
def sampleFs : LocalFs where
  cwd := ['/']
  isdir := fun _ => false
  pathExists := fun path => path = ['/', 't']
  walk := fun _ => []
  read := fun _ => []
  sha256 := fun _ =>
    ("e3b0c44298fc1c149afbf4c8996fb92427ae41e4649b934ca495991b7852b855".toList,
      "47DEQpj8HBSa+/TImW+5JCeuQeRkm5NMpJWZG3hSuFU=".toList)

def sampleArgs : LogArgs where
  identity := ⟨['a'], "gpu".toList, "us-east-1".toList, ['w']⟩
  metrics := none
  params := some ⟨[("batch".toList, .int 12)], List.nodup_singleton _⟩
  tags := none
  artifacts := some [['/', 't']]

/-- An experiment for the alias, and nothing stored yet. -/
def noRuns : World := .of ['b'] [] [(['a'], ['0'])] []

theorem lossless_serve (inject : Call → Fate) (h : ∀ c e, inject c ≠ .lost e) (w : World)
    (c : Call) :
    Lossless c (serve inject w c).1 := by
  intro e he
  simp only [serve] at he
  split at he
  · split at he <;> cases he
  · next hi => exact absurd hi (h c _)
  · split at he <;> cases he
  · cases he

def failUploads : Call → Fate
  | .uploadFile .. => .fail unavailable
  | _ => .ok

/-- A step that succeeds; a query for an object also shows `size` bytes and no checksum. -/
def confirms (size : ℕ) : Step Call Ans Fate World → Bool
  | ⟨.headObject _ _, _, .ok head, _⟩ =>
    head.checksumSHA256.isNone && head.contentLength == size
  | ⟨_, _, .ok _, _⟩ => true
  | ⟨_, _, .error _, _⟩ => false

theorem confirms_error {size : ℕ} {c : Call} {l : Fate} {e : PyExc} :
    confirms size ⟨c, l, .error e, w⟩ = false := by
  cases c <;> rfl

theorem exec_uploadVerified_confirmed {path b key : Str} {r : Except PyExc Str}
    (hpath : fs.pathExists path = true)
    (h : Exec (Serves F) (uploadVerified fs path b key) w tr r w')
    (hall : ∀ st ∈ tr, confirms (fs.read path).length st = true) : ∃ hex, r = .ok hex := by
  unfold uploadVerified at h
  rw [hpath] at h
  obtain ⟨l, a, w₁, tr', -, rfl, h⟩ := h
  obtain ⟨hsent, hrest⟩ := List.forall_mem_cons.1 hall
  cases a with
  | error e => exact absurd hsent Bool.false_ne_true
  | ok u =>
    obtain ⟨l', a, w₂, tr'', -, rfl, h⟩ := h
    obtain ⟨hseen, -⟩ := List.forall_mem_cons.1 hrest
    cases a with
    | error e => exact absurd hseen Bool.false_ne_true
    | ok head =>
      obtain ⟨checksum, length⟩ := head
      obtain ⟨hsum, hlen⟩ := Bool.and_eq_true_iff.1 hseen
      obtain rfl := Option.isNone_iff_eq_none.1 hsum
      obtain rfl := eq_of_beq hlen
      simp only [ret_bind] at h
      rw [if_neg (not_not.2 rfl)] at h
      exact ⟨_, h.2.1⟩

end Accel.Model
