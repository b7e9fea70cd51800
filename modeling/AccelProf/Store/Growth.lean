import AccelProf.Store.Log

/-! What a call does to MLflow, and what the operations of the store leave in place there: existing
experiments, the list of runs, and every run that is not their own. -/

namespace Accel.Model
open Data Program Prog

variable {F : Call → Fate → Prop} {w w₁ w' : World} {tr : List (Step Call Ans Fate World)}
  {store : Store} {fs : LocalFs} {args : LogArgs} {id : Str} {run : Run}

/-- The run that a call writes to, and how. -/
def writeOf : Call → Option (Str × (Run → Run))
  | .setTag id k v => some (id, Run.setTag k v)
  | .logParam id k v => some (id, Run.logParam k v)
  | .logMetric id k v => some (id, Run.logMetric k v)
  | .setTerminated id s => some (id, Run.setStatus s)
  | .deleteRun id => some (id, Run.setDeleted)
  | _ => none

/-- What one call did to MLflow. -/
inductive MlflowStep (w w' : World) : Call → Prop
  | same {c : Call} (h : w'.mlflow = w.mlflow) : MlflowStep w w' c
  | register {name id : Str} (hnone : w.mlflow.experiments name = none)
      (h : w'.mlflow = { w.mlflow with
        experiments := Function.update w.mlflow.experiments name (some id) }) :
      MlflowStep w w' (.createExperiment name)
  | create {expId name id : Str} {tags : List (Str × Str)} {start : Option Int}
      (hfresh : w.mlflow.runs id = none)
      (h : w'.mlflow = { w.mlflow with
        runs := Function.update w.mlflow.runs id (some (newRun expId tags name start))
        runIds := w.mlflow.runIds ++ [id] }) : MlflowStep w w' (.createRun expId tags name)
  | write {c : Call} {id : Str} {f : Run → Run} {run : Run} (hc : writeOf c = some (id, f))
      (hrun : w.mlflow.runs id = some run)
      (h : w'.mlflow = (w.withRun id (f run)).mlflow) : MlflowStep w w' c

theorem WritesRun.mlflowStep {c : Call} {f : Run → Run} {a : Except PyExc Unit}
    (hc : writeOf c = some (id, f)) (h : WritesRun w id f a w') : MlflowStep w w' c := by
  unfold WritesRun at h
  cases hr : w.mlflow.runs id with
  | none =>
    rw [hr] at h
    exact .same (by rw [h.2])
  | some run =>
    rw [hr] at h
    exact .write hc hr (by rw [h.2])

theorem Handle.mlflowStep {c : Call} {a : Ans c} (h : Handle w c a w') : MlflowStep w w' c := by
  cases c with
  | createExperiment name =>
    simp only [Handle] at h
    split at h
    · exact .same (by rw [h.2])
    · next hnone =>
      obtain ⟨id, -, -, rfl⟩ := h
      exact .register hnone rfl
  | createRun expId tags name =>
    obtain ⟨id, start, hfresh, -, -, rfl⟩ := h
    exact .create hfresh rfl
  | setTag id k v => exact WritesRun.mlflowStep rfl h
  | logParam id k v => exact WritesRun.mlflowStep rfl h
  | logMetric id k v => exact WritesRun.mlflowStep rfl h
  | setTerminated id s => exact WritesRun.mlflowStep rfl h
  | deleteRun id => exact WritesRun.mlflowStep rfl h
  | deleteObjects b keys =>
    obtain ⟨-, rfl⟩ := h
    exact .same rfl
  | putObject b key body =>
    obtain ⟨-, t, rfl⟩ := h
    exact .same rfl
  | uploadFile path b key body hex =>
    obtain ⟨-, t, rfl⟩ := h
    exact .same rfl
  | sleep t => exact .same (by rw [h.2])
  | getExperimentByName name => exact .same (by rw [h.2])
  | _ => exact .same (by rw [h.1])

/-- Whatever its fate, a call does one of the four things. -/
theorem Serves.mlflowStep {c : Call} {l : Fate} {a : Ans c} (h : Serves F w c l a w') :
    MlflowStep w w' c := by
  rcases h.effect with rfl | ⟨a', h⟩ | ⟨errs, h⟩
  · exact .same rfl
  · exact h.mlflowStep
  · cases c with
    | deleteObjects b keys => exact .same (by rw [h.2]; rfl)
    | _ => exact h.elim

/-- Experiments keep their ids and runs stay in the list. -/
structure Remains (w w' : World) : Prop where
  experiments : ∀ n e, w.mlflow.experiments n = some e → w'.mlflow.experiments n = some e
  listed : ∀ id ∈ w.mlflow.runIds, id ∈ w'.mlflow.runIds

theorem Remains.refl (w : World) : Remains w w := ⟨fun _ _ h => h, fun _ h => h⟩

theorem Remains.trans (h : Remains w w₁) (h' : Remains w₁ w') : Remains w w' where
  experiments := fun n e hn => h'.experiments n e (h.experiments n e hn)
  listed := fun id hid => h'.listed id (h.listed id hid)

theorem MlflowStep.remains {c : Call} (h : MlflowStep w w' c) : Remains w w' := by
  cases h with
  | same h => exact ⟨fun n e hn => by rwa [h], fun id hid => by rwa [h]⟩
  | @register name id hnone h =>
    refine ⟨fun n e hn => ?_, fun id hid => by rwa [h]⟩
    have hne : n ≠ name := fun hx => by
      rw [hx, hnone] at hn
      cases hn
    rw [h]
    exact (Function.update_of_ne hne ..).trans hn
  | create hfresh h =>
    exact ⟨fun n e hn => by rwa [h], fun id hid => by rw [h]; exact List.mem_append_left _ hid⟩
  | write hc hrun h => exact ⟨fun n e hn => by rwa [h], fun id hid => by rwa [h]⟩

/-- No program removes an experiment or drops a run from the list. -/
theorem exec_remains {α : Type} {p : Action α} {r : Except PyExc α}
    (h : Exec (Serves F) p w tr r w') : Remains w w' :=
  (Exec.of_uses (P := Remains w) (S := fun _ => True) (uses_of_forall (fun _ => trivial) p)
    (fun _ _ _ _ _ _ hw hs => hw.trans hs.mlflowStep.remains) h (.refl w)).1

/-- Calls that create nothing in MLflow and write only to run `id`, never its alias. -/
def OwnCall (id : Str) : Call → Prop
  | .setTag id' k _ => id' = id ∧ k ≠ aliasTag
  | .logParam id' _ _ => id' = id
  | .logMetric id' _ _ => id' = id
  | .setTerminated id' _ => id' = id
  | .deleteRun id' => id' = id
  | .createExperiment _ => False
  | .createRun .. => False
  | _ => True

theorem UploadCall.own {b : Str} {S : Key → Prop} {c : Call} (h : UploadCall b S c) :
    OwnCall id c := by
  cases c <;> trivial

theorem DeleteCall.own {c : Call} (h : DeleteCall c) : OwnCall id c := by
  cases c <;> trivial

theorem not_reserved_ne {k t : Str} (h : isReserved k = false) (ht : isReserved t = true) :
    k ≠ t := by
  rintro rfl
  rw [h] at ht
  cases ht

theorem uses_recordContent_own {uri : Str} {metrics params tags : Option PyDict}
    (h : validateContent metrics tags = .ok ()) :
    (recordContent id uri metrics params tags).Uses (OwnCall id) := by
  refine Uses.bind (uses_foldlM (fun _ kv hkv => ?_) ()) fun _ =>
    Uses.bind (uses_foldlM (fun _ kv _ => ?_) ()) fun _ =>
      Uses.bind (uses_foldlM (fun _ kv _ => ?_) ()) fun _ => ?_
  · exact uses_request ⟨rfl, not_reserved_ne ((validateContent_ok h).2 kv hkv) (by decide)⟩
  · exact uses_request rfl
  · exact uses_request rfl
  · exact uses_request ⟨rfl, by decide⟩

theorem uses_uploadAndFinalize_own (store : Store) (fs : LocalFs) (args : LogArgs) (id : Str) :
    (uploadAndFinalize store fs args id).Uses (OwnCall id) := by
  rw [uploadAndFinalize_eq]
  refine Uses.bind (uses_ofExcept _) fun planned => ?_
  have hup : (uploadPlanned fs store.traceBucket.name planned []).Uses (OwnCall id) :=
    (uses_uploadPlanned (S := fun _ => True) fs (fun _ _ => trivial) []).mono fun _ h => h.own
  refine hup.bind fun _ => ?_
  cases hv : validateContent args.metrics (store.withNamespace args.tags) with
  | error e => trivial
  | ok u => exact (uses_recordContent_own hv).bind fun _ => uses_request rfl

theorem uses_deletePrefix_own (uri : Str) : (deletePrefix uri).Uses (OwnCall id) :=
  (uses_deletePrefix uri).mono fun _ h => h.own

theorem uses_failRun (id : Str) : (failRun id).Uses (OwnCall id) :=
  (uses_request (S := OwnCall id) (c := .setTerminated id .failed) rfl).attempt.bind fun _ =>
    trivial

theorem uses_cleanUp_own (uri id : Str) : (cleanUp uri id).Uses (OwnCall id) :=
  (uses_deletePrefix_own uri).attempt.bind fun _ => uses_failRun id

theorem uses_deleteRun (id : Str) : (deleteRun id).Uses (OwnCall id) := by
  have hdel : (request (.deleteRun id)).Uses (OwnCall id) := uses_request rfl
  refine hdel.attempt.bind fun out => ?_
  cases out with
  | ok u => trivial
  | error e => exact uses_ite trivial trivial

theorem uses_purge (ref : RunRef) (deleteMlflowRun : Bool) :
    (purge ref deleteMlflowRun).Uses (OwnCall ref.runId) := by
  have hdel : ∀ deleted : ℕ, ((deleteRun ref.runId).bind fun _ => ret deleted : Action ℕ).Uses
      (OwnCall ref.runId) := fun deleted => (uses_deleteRun _).bind fun _ => trivial
  unfold purge
  cases ref.artifactsUri with
  | none => cases deleteMlflowRun <;> first | trivial | exact hdel 0
  | some uri =>
    by_cases hu : uri = []
    · cases deleteMlflowRun <;> simp only [hu, if_true] <;> first | trivial | exact hdel 0
    · simp only [hu, if_false]
      cases deleteMlflowRun
      · exact (uses_deletePrefix_own uri).bind fun _ => trivial
      · exact (uses_deletePrefix_own uri).bind hdel

/-- Another run is as before. -/
theorem MlflowStep.other {c : Call} {id' : Str} (h : MlflowStep w w' c) (hc : OwnCall id c)
    (hne : id' ≠ id) : w'.mlflow.runs id' = w.mlflow.runs id' := by
  cases h with
  | same h => rw [h]
  | register hnone h => rw [h]
  | create hfresh h => exact hc.elim
  | @write c id'' f run hw hrun h =>
    have hid : id'' = id := by
      cases c <;> simp only [writeOf, Option.some.injEq, Prod.mk.injEq, reduceCtorEq] at hw
      case setTag => exact hw.1.symm.trans hc.1
      all_goals exact hw.1.symm.trans hc
    subst hid
    rw [h, World.withRun_runs_ne hne]

theorem exec_own_other {α : Type} {p : Action α} {r : Except PyExc α} {id' : Str}
    (hp : p.Uses (OwnCall id)) (hne : id' ≠ id) (h : Exec (Serves F) p w tr r w') :
    w'.mlflow.runs id' = w.mlflow.runs id' :=
  (Exec.of_uses (P := fun w' => w'.mlflow.runs id' = w.mlflow.runs id') hp
    (fun _ _ _ _ _ hc hw hs => (hs.mlflowStep.other hc hne).trans hw) h rfl).1

theorem exec_createRun_keeps {i : Identity} {r : Except PyExc Str}
    (hrun : w.mlflow.runs id = some run) (h : Exec (Serves F) (createRun i) w tr r w') :
    w'.mlflow.runs id = some run := by
  rcases (exec_createRun h).2 with ⟨hreg, -⟩ | ⟨id', expId, start, hc, -⟩
  · rw [hreg.runs, hrun]
  · have hne : id ≠ id' := by
      rintro rfl
      rw [hc.fresh] at hrun
      cases hrun
    rw [hc.runs, Function.update_of_ne hne, hrun]

theorem exec_log_keeps {r : Except PyExc Str} (hrun : w.mlflow.runs id = some run)
    (h : Exec (Serves F) (log store fs args) w tr r w') : w'.mlflow.runs id = some run := by
  rcases exec_log h with ⟨-, rfl, -⟩ | ⟨e, -, he⟩ | ⟨id', tr₁, w₁, tr₂, hcreate, -, hbody⟩
  · exact hrun
  · exact exec_createRun_keeps hrun he
  have hrun₁ := exec_createRun_keeps hrun hcreate
  have hne : id ≠ id' := by
    obtain ⟨expId, start, hc⟩ := exec_createRun_ok hcreate
    rintro rfl
    rw [hc.fresh] at hrun
    cases hrun
  rcases hbody with ⟨-, -, hbody⟩ | ⟨e, w₂, tr₃, -, -, hbody, hclean⟩
  · rw [exec_own_other (uses_uploadAndFinalize_own ..) hne hbody, hrun₁]
  · rw [exec_own_other (uses_cleanUp_own ..) hne hclean,
      exec_own_other (uses_uploadAndFinalize_own ..) hne hbody, hrun₁]

end Accel.Model
