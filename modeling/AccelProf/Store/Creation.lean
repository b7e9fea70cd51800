import AccelProf.Store.Record

/-! What `create_run` does: it may register an experiment, and it adds one running run with a fresh
id. -/

namespace Accel.Model
open Data Program Prog

variable {F : Call → Fate → Prop} {w w₁ w' : World} {tr : List (Step Call Ans Fate World)}
  {i : Identity} {aliasName id expId : Str} {start : Option Int}

/-- At most the experiment of one alias differs. -/
structure Registers (aliasName : Str) (w w' : World) : Prop where
  s3 : w'.s3 = w.s3
  runs : w'.mlflow.runs = w.mlflow.runs
  runIds : w'.mlflow.runIds = w.mlflow.runIds
  experiments : ∀ n, n ≠ aliasName → w'.mlflow.experiments n = w.mlflow.experiments n

/-- One run more than before, under an id that was free. -/
structure Created (i : Identity) (id expId : Str) (start : Option Int) (w w' : World) : Prop where
  s3 : w'.s3 = w.s3
  fresh : w.mlflow.runs id = none
  shape : isRunId id = true
  runs : w'.mlflow.runs = Function.update w.mlflow.runs id
    (some (newRun expId (creationTags i) (runName i) start))
  runIds : w'.mlflow.runIds = w.mlflow.runIds ++ [id]
  experiment : w'.mlflow.experiments i.aliasName = some expId
  experiments : ∀ n, n ≠ i.aliasName → w'.mlflow.experiments n = w.mlflow.experiments n

theorem Registers.refl (w : World) : Registers aliasName w w := ⟨rfl, rfl, rfl, fun _ _ => rfl⟩

theorem Registers.trans (h : Registers aliasName w w₁) (h' : Registers aliasName w₁ w') :
    Registers aliasName w w' where
  s3 := h'.s3.trans h.s3
  runs := h'.runs.trans h.runs
  runIds := h'.runIds.trans h.runIds
  experiments := fun n hn => (h'.experiments n hn).trans (h.experiments n hn)

theorem Registers.created (h : Registers i.aliasName w w₁) (h' : Created i id expId start w₁ w') :
    Created i id expId start w w' where
  s3 := h'.s3.trans h.s3
  fresh := h.runs ▸ h'.fresh
  shape := h'.shape
  runs := h.runs ▸ h'.runs
  runIds := h.runIds ▸ h'.runIds
  experiment := h'.experiment
  experiments := fun n hn => (h'.experiments n hn).trans (h.experiments n hn)

theorem Created.run (h : Created i id expId start w w') :
    w'.mlflow.runs id = some (newRun expId (creationTags i) (runName i) start) := by
  rw [h.runs, Function.update_self]

def ExperimentCall (aliasName : Str) : Call → Prop
  | .getExperimentByName n => n = aliasName
  | .createExperiment n => n = aliasName
  | _ => False

theorem ExperimentCall.quiet {c : Call} (h : ExperimentCall aliasName c) : Quiet c := by
  cases c <;> trivial

theorem serves_experimentCall {c : Call} {l : Fate} {a : Ans c} (hc : ExperimentCall aliasName c)
    (h : Serves F w c l a w') : Registers aliasName w w' := by
  rcases h.effect with rfl | ⟨a', h⟩ | ⟨errs, h⟩
  · exact .refl w'
  · cases c with
    | getExperimentByName n =>
      obtain ⟨-, rfl⟩ := h
      exact .refl w'
    | createExperiment n =>
      obtain rfl : n = aliasName := hc
      simp only [Handle] at h
      split at h
      · obtain ⟨-, rfl⟩ := h
        exact .refl w'
      · obtain ⟨expId, -, -, rfl⟩ := h
        exact ⟨rfl, rfl, rfl, fun n' hn => Function.update_of_ne hn ..⟩
    | _ => exact hc.elim
  · cases c <;> first | exact h.elim | exact hc.elim

theorem uses_experimentId (aliasName : Str) (create : Bool) :
    (experimentId aliasName create).Uses (ExperimentCall aliasName) := by
  have hget : (request (.getExperimentByName aliasName)).Uses (ExperimentCall aliasName) :=
    uses_request rfl
  have hcreate : (request (.createExperiment aliasName)).Uses (ExperimentCall aliasName) :=
    uses_request rfl
  refine hget.bind fun found => ?_
  cases found with
  | some expId => trivial
  | none =>
    refine uses_ite trivial (hcreate.attempt.bind fun out => ?_)
    cases out with
    | ok expId => trivial
    | error e =>
      refine hget.bind fun again => ?_
      cases again <;> trivial

theorem exec_getExperimentByName_ok {found : Option Str}
    (h : Exec (Serves F) (request (.getExperimentByName aliasName)) w tr (.ok found) w') :
    w' = w ∧ found = w.mlflow.experiments aliasName := by
  obtain ⟨l, hs, -⟩ := exec_request.1 h
  obtain ⟨ha, hw⟩ := hs.handle_of_ok (by simp)
  exact ⟨hw, Except.ok.inj ha⟩

theorem exec_createExperiment_ok
    (h : Exec (Serves F) (request (.createExperiment aliasName)) w tr (.ok expId) w') :
    w'.mlflow.experiments aliasName = some expId := by
  obtain ⟨l, hs, -⟩ := exec_request.1 h
  have hh := hs.handle_of_ok (by simp)
  simp only [Handle] at hh
  split at hh
  · cases hh.1
  · obtain ⟨expId', -, ha, rfl⟩ := hh
    rw [Except.ok.inj ha]
    exact Function.update_self ..

/-- With `create`, the experiment id that is returned is the alias's. -/
theorem exec_experimentId_ok {found : Option Str}
    (h : Exec (Serves F) (experimentId aliasName true) w tr (.ok found) w') :
    ∃ expId, found = some expId ∧ w'.mlflow.experiments aliasName = some expId := by
  simp only [experimentId, bind_eq, pure_eq, Bool.not_true, Bool.false_eq_true, if_false] at h
  obtain ⟨found₁, tr₁, tr₂, w₁, h₁, h₂, -⟩ := exec_bind_ok.1 h
  obtain ⟨rfl, rfl⟩ := exec_getExperimentByName_ok h₁
  cases hx : w₁.mlflow.experiments aliasName with
  | some expId =>
    rw [hx] at h₂
    obtain ⟨-, hf, rfl⟩ := h₂
    exact ⟨expId, Except.ok.inj hf, hx⟩
  | none =>
    rw [hx] at h₂
    obtain ⟨out, tr₃, tr₄, w₂, h₃, h₄, -⟩ := exec_attempt_bind.1 h₂
    cases out with
    | ok expId =>
      obtain ⟨-, hf, rfl⟩ := h₄
      exact ⟨expId, Except.ok.inj hf, exec_createExperiment_ok h₃⟩
    | error e =>
      obtain ⟨found₂, tr₅, tr₆, w₃, h₅, h₆, -⟩ := exec_bind_ok.1 h₄
      obtain ⟨rfl, rfl⟩ := exec_getExperimentByName_ok h₅
      cases hy : w₃.mlflow.experiments aliasName with
      | none =>
        rw [hy] at h₆
        cases h₆.2.1
      | some expId =>
        rw [hy] at h₆
        obtain ⟨-, hf, rfl⟩ := h₆
        exact ⟨expId, Except.ok.inj hf, hy⟩

theorem serves_createRun {l : Fate} {tags : List (Str × Str)} {name : Str}
    {a : Ans (.createRun expId tags name)} (h : Serves F w (.createRun expId tags name) l a w') :
    (w' = w ∧ ∃ e, a = .error e) ∨ ∃ id start, w.mlflow.runs id = none ∧ isRunId id = true ∧
      w' = { w with mlflow := { w.mlflow with
        runs := Function.update w.mlflow.runs id (some (newRun expId tags name start))
        runIds := w.mlflow.runIds ++ [id] } } ∧
      (a = .ok id ∨ ∃ e, l = .lost e ∧ a = .error (.service e)) := by
  obtain ⟨-, h⟩ := h
  cases l with
  | ok =>
    obtain ⟨id, start, hf, hid, ha, hw⟩ := h
    exact .inr ⟨id, start, hf, hid, hw, .inl ha⟩
  | perKey errs => exact h.elim
  | fail e => exact .inl ⟨h.2, _, h.1⟩
  | lost e =>
    obtain ⟨ha, a', id, start, hf, hid, -, hw⟩ := h
    exact .inr ⟨id, start, hf, hid, hw, .inr ⟨e, rfl, ha⟩⟩

/-- Before its last call `create_run` only registers an experiment; then there is a new run, whose
id is returned unless the response was lost, or the call failed. -/
theorem exec_createRun {r : Except PyExc Str} (h : Exec (Serves F) (createRun i) w tr r w') :
    (∀ st ∈ tr, Quiet st.call ∧ (Registers i.aliasName w st.after ∨ st.after = w')) ∧
    ((Registers i.aliasName w w' ∧ ∃ e, r = .error e) ∨
      ∃ id expId start, Created i id expId start w w' ∧ (r = .ok id ∨
        ∃ tags name e, F (.createRun expId tags name) (.lost e) ∧ r = .error (.service e))) := by
  simp only [createRun, bind_eq] at h
  have hpts : ∀ {tr₁ r₁ w₁}, Exec (Serves F) (experimentId i.aliasName true) w tr₁ r₁ w₁ →
      Registers i.aliasName w w₁ ∧
        ∀ st ∈ tr₁, Quiet st.call ∧ Registers i.aliasName w st.after := fun h₁ => by
    have ⟨h', htr⟩ := Exec.of_uses (P := Registers i.aliasName w) (uses_experimentId _ _)
      (fun _ _ _ _ _ hc hw hs => hw.trans (serves_experimentCall hc hs)) h₁ (.refl w)
    exact ⟨h', fun st hst => ⟨(htr st hst).1.quiet, (htr st hst).2⟩⟩
  rcases exec_bind.1 h with ⟨e, he, rfl⟩ | ⟨found, tr₁, tr₂, w₁, h₁, h₂, rfl⟩
  · obtain ⟨h', htr⟩ := hpts he
    exact ⟨fun st hst => (htr st hst).imp_right .inl, .inl ⟨h', e, rfl⟩⟩
  obtain ⟨hreg, htr⟩ := hpts h₁
  obtain ⟨expId, rfl, hexp⟩ := exec_experimentId_ok h₁
  obtain ⟨l, hs, rfl⟩ := exec_request.1 h₂
  refine ⟨fun st hst => ?_, ?_⟩
  · rcases List.mem_append.1 hst with hst | hst
    · exact (htr st hst).imp_right .inl
    · rw [List.mem_singleton.1 hst]
      exact ⟨trivial, .inr rfl⟩
  rcases serves_createRun hs with ⟨rfl, e, rfl⟩ | ⟨id, start, hf, hid, rfl, ha⟩
  · exact .inl ⟨hreg, e, rfl⟩
  refine .inr ⟨id, expId, start, hreg.created
    ⟨rfl, hf, hid, rfl, rfl, hexp, fun _ _ => rfl⟩, ha.imp_right ?_⟩
  rintro ⟨e, he, hr⟩
  exact ⟨_, _, e, he ▸ hs.1, hr⟩

theorem exec_createRun_ok (h : Exec (Serves F) (createRun i) w tr (.ok id) w') :
    ∃ expId start, Created i id expId start w w' := by
  rcases (exec_createRun h).2 with ⟨-, e, he⟩ | ⟨id', expId, start, hc, h' | ⟨_, _, _, -, h'⟩⟩
  · cases he
  · exact ⟨expId, start, Except.ok.inj h' ▸ hc⟩
  · cases h'

end Accel.Model
