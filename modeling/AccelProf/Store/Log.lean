import AccelProf.Store.Creation

/-! The executions of `log`, phase by phase: validation, `create_run`, the uploads and the content,
the status, and the clean-up of a failure. -/

namespace Accel.Model
open Data Program Prog

variable {F : Call → Fate → Prop} {w w₁ w' : World} {tr : List (Step Call Ans Fate World)}
  {store : Store} {fs : LocalFs} {args : LogArgs} {id : Str} {run : Run}

theorem Touches.withRun {b : Str} {S : Key → Prop} (h : Touches b S w w') (id : Str) (run : Run) :
    Touches b S (w.withRun id run) (w'.withRun id run) := by
  refine ⟨?_, h.others, h.keys⟩
  simp only [World.withRun, h.mlflow]

section Body
variable (store fs args id)

def LogArgs.pre : Key := runPrefix args.identity.aliasName id

def LogArgs.uri : Str := artifactsUri store.traceBucket.name args.identity.aliasName id

def LogArgs.plan : Except PyExc (List (Str × Key)) :=
  planArtifacts fs (args.pre id) (args.artifacts.getD [])

/-- The record of the run once its content is logged. -/
def LogArgs.record (run : Run) : Run :=
  recorded (args.uri store id) args.metrics args.params (store.withNamespace args.tags) run

theorem uploadAndFinalize_eq : uploadAndFinalize store fs args id =
    (ofExcept (args.plan fs id)).bind fun planned =>
      (uploadPlanned fs store.traceBucket.name planned []).bind fun _ =>
        (ofExcept (validateContent args.metrics (store.withNamespace args.tags))).bind fun _ =>
          (recordContent id (args.uri store id) args.metrics args.params
            (store.withNamespace args.tags)).bind fun _ =>
              request (.setTerminated id .finished) := by
  simp only [uploadAndFinalize, uploadArtifacts, finalizeRun_eq, bind_eq, pure_eq, bind_assoc,
    ret_bind]
  rfl

/-- What the body of `log` may have done before it sets the status: it touched the run's prefix and
recorded content. -/
def Working (run : Run) (w w' : World) : Prop := ∃ run',
  Touches store.traceBucket.name (args.pre id <+: ·) (w.withRun id run') w' ∧
    run'.status = run.status ∧ run'.lifecycleStage = run.lifecycleStage

/-- The state in which the status is set: every planned file and all content is there. -/
structure Ready (planned : List (Str × Key)) (run : Run) (w w' : World) : Prop where
  plan : args.plan fs id = .ok planned
  valid : validateContent args.metrics (store.withNamespace args.tags) = .ok ()
  touches : Touches store.traceBucket.name (· ∈ planned.map Prod.snd)
    (w.withRun id (args.record store id run)) w'
  holds : ∀ f ∈ planned, Holds fs store.traceBucket.name f.1 f.2 w'

end Body

theorem ready_working {planned : List (Str × Key)} (h : Ready store fs args id planned run w w') :
    Working store args id run w w' := by
  have hpre := (planArtifacts_ok h.plan).2
  refine ⟨_, h.touches.mono fun k hk => ?_, recorded_status .., recorded_lifecycleStage ..⟩
  obtain ⟨f, hf, rfl⟩ := List.mem_map.1 hk
  exact hpre f hf

/-- The body of `log` either fails before the status is set, or sets it in a state where everything
else is done. -/
theorem exec_uploadAndFinalize {r : Except PyExc Unit} (hrun : w.mlflow.runs id = some run)
    (h : Exec (Serves F) (uploadAndFinalize store fs args id) w tr r w') :
    ((∃ e, r = .error e) ∧ Working store args id run w w' ∧
      ∀ st ∈ tr, Quiet st.call ∧ Working store args id run w st.after) ∨
    ∃ planned tr₀ l w₁, Ready store fs args id planned run w w₁ ∧
      tr = tr₀ ++ [⟨.setTerminated id .finished, l, r, w'⟩] ∧
      (∀ st ∈ tr₀, Quiet st.call ∧ Working store args id run w st.after) ∧
      Serves F w₁ (.setTerminated id .finished) l r w' := by
  have hself : ∀ {w₁}, Touches store.traceBucket.name (args.pre id <+: ·) w w₁ →
      Working store args id run w w₁ := fun ht => ⟨run, by rwa [World.withRun_self hrun], rfl, rfl⟩
  rw [uploadAndFinalize_eq] at h
  cases hplan : args.plan fs id with
  | error e =>
    rw [hplan] at h
    obtain ⟨rfl, rfl, rfl⟩ := h
    exact .inl ⟨⟨e, rfl⟩, hself (.refl _), by simp⟩
  | ok planned =>
    obtain ⟨hnd, hpre⟩ := planArtifacts_ok hplan
    have hkeys : ∀ k, k ∈ planned.map Prod.snd → args.pre id <+: k := fun k hk => by
      obtain ⟨f, hf, rfl⟩ := List.mem_map.1 hk
      exact hpre f hf
    have huses := uses_uploadPlanned (b := store.traceBucket.name) fs
      (fun f (hf : f ∈ planned) => List.mem_map_of_mem (f := Prod.snd) hf) ([] : List Key)
    rw [hplan, ofExcept_ok, ret_bind] at h
    rcases exec_bind.1 h with ⟨e, he, rfl⟩ | ⟨objs, tr₁, tr₂, w₁, h₁, h₂, rfl⟩
    · obtain ⟨ht, hpts⟩ := exec_uploadCalls huses he
      exact .inl ⟨⟨e, rfl⟩, hself (ht.mono hkeys), fun st hst =>
        (hpts st hst).imp_right fun h => hself (h.mono hkeys)⟩
    obtain ⟨ht, hpts⟩ := exec_uploadCalls huses h₁
    -- the uploads leave the record as it is, so the writes start from it
    have hw₁ : w₁ = w₁.withRun id run := (World.withRun_self (by rw [ht.mlflow, hrun])).symm
    have hup : ∀ st ∈ tr₁, Quiet st.call ∧ Working store args id run w st.after :=
      fun st hst => (hpts st hst).imp_right fun h => hself (h.mono hkeys)
    have hrec : ∀ {w₂}, (∃ run', w₂ = w₁.withRun id run' ∧ run'.status = run.status ∧
        run'.lifecycleStage = run.lifecycleStage) → Working store args id run w w₂ := by
      rintro w₂ ⟨run', rfl, hs, hl⟩
      exact ⟨run', (ht.withRun id run').mono hkeys, hs, hl⟩
    cases hv : validateContent args.metrics (store.withNamespace args.tags) with
    | error e =>
      rw [hv] at h₂
      obtain ⟨rfl, rfl, rfl⟩ := h₂
      exact .inl ⟨⟨e, rfl⟩, hself (ht.mono hkeys), by simpa using hup⟩
    | ok u =>
      rw [hv, ofExcept_ok, ret_bind] at h₂
      have hall : ∀ {tr₃ : List (Step Call Ans Fate World)},
          (∀ st ∈ tr₃, Quiet st.call ∧ Working store args id run w st.after) →
          ∀ st ∈ tr₁ ++ tr₃, Quiet st.call ∧ Working store args id run w st.after :=
            fun h₃ st hst =>
        (List.mem_append.1 hst).elim (hup st) (h₃ st)
      rcases exec_bind.1 h₂ with ⟨e, he, rfl⟩ | ⟨u', tr₃, tr₄, w₂, h₃, h₄, rfl⟩
      · rw [hw₁] at he
        obtain ⟨hend, hpts'⟩ := exec_writeCalls (uses_recordContent ..) he
        exact .inl ⟨⟨e, rfl⟩, hrec hend, hall fun st hst => (hpts' st hst).imp_right hrec⟩
      · rw [hw₁] at h₃
        obtain ⟨-, hpts'⟩ := exec_writeCalls (uses_recordContent ..) h₃
        obtain rfl := exec_recordContent_ok h₃
        obtain ⟨l, hs, rfl⟩ := exec_request.1 h₄
        refine .inr ⟨planned, tr₁ ++ tr₃, l, _,
          ⟨hplan, hv, ht.withRun id _, fun f hf => ?_⟩, by simp,
          hall fun st hst => (hpts' st hst).imp_right hrec, hs⟩
        exact exec_uploadPlanned_ok hnd h₁ f hf

/-- The clean-up deletes, whatever comes of it, and then marks the run; it never raises. -/
theorem exec_cleanUp {uri : Str} {r : Except PyExc Unit}
    (h : Exec (Serves F) (cleanUp uri id) w tr r w') : r = .ok () ∧ ∃ tr₁ rd w₁ l a,
      Exec (Serves F) (deletePrefix uri) w tr₁ rd w₁ ∧
      tr = tr₁ ++ [⟨.setTerminated id .failed, l, a, w'⟩] ∧
      Serves F w₁ (.setTerminated id .failed) l a w' := by
  simp only [cleanUp, failRun, bind_eq, pure_eq] at h
  obtain ⟨rd, tr₁, tr₂, w₁, h₁, h₂, rfl⟩ := exec_attempt_bind.1 h
  obtain ⟨out, tr₃, tr₄, w₂, h₃, ⟨rfl, rfl, rfl⟩, rfl⟩ := exec_attempt_bind.1 h₂
  obtain ⟨l, hs, rfl⟩ := exec_request.1 h₃
  exact ⟨rfl, tr₁, rd, w₁, l, out, h₁, by simp, hs⟩

/-- The phases of an execution of `log`. -/
theorem exec_log {r : Except PyExc Str} (h : Exec (Serves F) (log store fs args) w tr r w') :
    (tr = [] ∧ w' = w ∧ ∃ e, r = .error e ∧ (validateIdentity args.identity = .error e ∨
      validateContent args.metrics (store.withNamespace args.tags) = .error e)) ∨
    (∃ e, r = .error e ∧ Exec (Serves F) (createRun args.identity) w tr (.error e) w') ∨
    ∃ id tr₁ w₁ tr₂, Exec (Serves F) (createRun args.identity) w tr₁ (.ok id) w₁ ∧
      validateContent args.metrics (store.withNamespace args.tags) = .ok () ∧
      ((r = .ok id ∧ tr = tr₁ ++ tr₂ ∧
          Exec (Serves F) (uploadAndFinalize store fs args id) w₁ tr₂ (.ok ()) w') ∨
        ∃ e w₂ tr₃, r = .error e ∧ tr = tr₁ ++ (tr₂ ++ tr₃) ∧
          Exec (Serves F) (uploadAndFinalize store fs args id) w₁ tr₂ (.error e) w₂ ∧
          Exec (Serves F) (cleanUp (args.uri store id) id) w₂ tr₃ (.ok ()) w') := by
  simp only [log, bind_eq] at h
  cases hi : validateIdentity args.identity with
  | error e =>
    rw [hi] at h
    obtain ⟨rfl, rfl, rfl⟩ := h
    exact .inl ⟨rfl, rfl, e, rfl, .inl rfl⟩
  | ok u =>
    rw [hi, ofExcept_ok, ret_bind] at h
    cases hc : validateContent args.metrics (store.withNamespace args.tags) with
    | error e =>
      rw [hc] at h
      obtain ⟨rfl, rfl, rfl⟩ := h
      exact .inl ⟨rfl, rfl, e, rfl, .inr rfl⟩
    | ok u' =>
      rw [hc, ofExcept_ok, ret_bind] at h
      rcases exec_bind.1 h with ⟨e, he, rfl⟩ | ⟨id, tr₁, tr₂, w₁, h₁, h₂, rfl⟩
      · exact .inr (.inl ⟨e, rfl, he⟩)
      refine .inr (.inr ?_)
      obtain ⟨out, tr₃, tr₄, w₂, h₃, h₄, rfl⟩ := exec_attempt_bind.1 h₂
      cases out with
      | ok u'' =>
        obtain ⟨rfl, rfl, rfl⟩ := h₄
        exact ⟨id, tr₁, w₁, tr₃, h₁, rfl, .inl ⟨rfl, by simp, h₃⟩⟩
      | error e =>
        rcases exec_bind.1 h₄ with ⟨e', he', rfl⟩ | ⟨u'', tr₅, tr₆, w₃, h₅, ⟨rfl, rfl, rfl⟩, rfl⟩
        · cases (exec_cleanUp he').1
        · exact ⟨id, tr₁, w₁, tr₃, h₁, rfl, .inr ⟨e, w₂, tr₅, rfl, by simp, h₃, h₅⟩⟩

end Accel.Model
