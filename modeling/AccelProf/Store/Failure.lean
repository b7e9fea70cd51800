import AccelProf.Program.Interaction
import AccelProf.Store.Log

/-! Why `log` raises: the call, or the verified upload of a file, that an exception after validation
goes back to. -/

namespace Accel.Model
open Data Program Prog

variable {F : Call → Fate → Prop} {w w₁ w' : World} {tr : List (Step Call Ans Fate World)}
  {store : Store} {fs : LocalFs} {args : LogArgs} {id : Str} {run : Run} {e : PyExc}

/-- A call that raises has had no effect, but for an upload, which may leave its object behind. -/
def Lossless (c : Call) (l : Fate) : Prop :=
  ∀ e, l = .lost e → ∃ path b key body hex, c = .uploadFile path b key body hex

/-- The call took effect and was answered with a value. -/
def Succeeds (st : Step Call Ans Fate World) : Prop := st.label = .ok ∧ ∃ v, st.answer = .ok v

/-- The call had no effect and raises `e`. -/
def FailsWith (e : PyExc) (st : Step Call Ans Fate World) : Prop :=
  (∃ x, st.label = .fail x) ∧ st.answer = .error e

/-- Calls to MLflow: they have their effect at once or fail, under lossless services. -/
def MlflowCall : Call → Prop
  | .getExperimentByName _ | .createExperiment _ | .createRun .. | .setTag .. | .logParam ..
  | .logMetric .. | .setTerminated .. | .getRun _ | .searchRuns _ | .deleteRun _ => True
  | .listCommonPrefixes .. | .listObjects .. | .deleteObjects .. | .putObject .. | .uploadFile ..
  | .headObject .. | .sleep _ => False

theorem serves_mlflow {c : Call} {l : Fate} {a : Ans c} (hc : MlflowCall c)
    (h : Serves Lossless w c l a w') : (l = .ok ∧ Handle w c a w') ∨
      w' = w ∧ ∃ x, l = .fail x ∧ a = .error (.service x) := by
  obtain ⟨hlost, h⟩ := h
  cases l with
  | ok => exact .inl ⟨rfl, h⟩
  | perKey errs => cases c <;> first | exact h.elim | exact hc.elim
  | fail x => exact .inr ⟨h.2, x, rfl, h.1⟩
  | lost x =>
    obtain ⟨path, b, key, body, hex, rfl⟩ := hlost x rfl
    exact hc.elim

/-- An execution succeeded call by call and returned, or raises what a call to MLflow raised. -/
def Explained {α : Type} (tr : List (Step Call Ans Fate World)) (r : Except PyExc α) : Prop :=
  ((∃ a, r = .ok a) ∧ ∀ st ∈ tr, Succeeds st) ∨
    ∃ e, r = .error e ∧ ∃ st ∈ tr, MlflowCall st.call ∧ FailsWith e st

/-- A request to MLflow that cannot be refused: it succeeds, or it fails and changes nothing. -/
theorem exec_mlflowRequest {c : Call} {r : Except PyExc (Resp c)}
    (h : Exec (Serves Lossless) (request c) w tr r w') (hc : MlflowCall c)
    (hvalue : ∀ {a}, Handle w c a w' → ∃ v, a = .ok v) :
    Explained tr r ∧ ((∃ v, r = .ok v ∧ Handle w c (.ok v) w') ∨ (∃ e, r = .error e) ∧ w' = w) := by
  obtain ⟨l, hs, rfl⟩ := exec_request.1 h
  rcases serves_mlflow hc hs with ⟨rfl, hh⟩ | ⟨rfl, x, rfl, rfl⟩
  · obtain ⟨v, rfl⟩ := hvalue hh
    exact ⟨.inl ⟨⟨v, rfl⟩, by simp [Succeeds]⟩, .inl ⟨v, rfl, hh⟩⟩
  · exact ⟨.inr ⟨_, rfl, _, List.mem_singleton_self _, hc, ⟨x, rfl⟩, rfl⟩, .inr ⟨⟨_, rfl⟩, rfl⟩⟩

section Sequence
variable {α β : Type} {tr₁ tr₂ : List (Step Call Ans Fate World)} {a : α} {r : Except PyExc β}

theorem Explained.succeeds (h : Explained tr (.ok a : Except PyExc α)) :
    ∀ st ∈ tr, Succeeds st := by
  obtain ⟨-, h⟩ | ⟨e, he, -⟩ := h
  · exact h
  · cases he

theorem Explained.raised {γ : Type} (h : Explained tr₁ (.error e : Except PyExc γ)) :
    Explained (tr₁ ++ tr₂) (.error e : Except PyExc β) := by
  obtain ⟨⟨a, ha⟩, -⟩ | ⟨e', he, st, hst, hf⟩ := h
  · cases ha
  · cases he
    exact .inr ⟨e, rfl, st, List.mem_append_left _ hst, hf⟩

theorem Explained.append (h₁ : Explained tr₁ (.ok a : Except PyExc α)) (h₂ : Explained tr₂ r) :
    Explained (tr₁ ++ tr₂) r := by
  obtain ⟨hr, hall⟩ | ⟨e, rfl, st, hst, hf⟩ := h₂
  · exact .inl ⟨hr, fun st hst => (List.mem_append.1 hst).elim (h₁.succeeds st) (hall st)⟩
  · exact .inr ⟨e, rfl, st, List.mem_append_right _ hst, hf⟩

end Sequence

section Create
variable {i : Identity} {aliasName : Str}

theorem exec_getExperiment {r : Except PyExc (Option Str)}
    (h : Exec (Serves Lossless) (request (.getExperimentByName aliasName)) w tr r w') :
    Explained tr r ∧ w' = w ∧ ∀ found, r = .ok found → found = w.mlflow.experiments aliasName := by
  obtain ⟨hacc, ⟨v, rfl, hv, rfl⟩ | ⟨⟨e, rfl⟩, rfl⟩⟩ :=
    exec_mlflowRequest h trivial fun hh => ⟨_, hh.1⟩
  · exact ⟨hacc, rfl, fun found hf => Except.ok.inj (hf.symm.trans hv)⟩
  · exact ⟨hacc, rfl, nofun⟩

/-- Nobody else creates the experiment meanwhile, so a second look-up only follows a failure. -/
theorem exec_experimentId_explained {r : Except PyExc (Option Str)}
    (h : Exec (Serves Lossless) (experimentId aliasName true) w tr r w') : Explained tr r := by
  simp only [experimentId, bind_eq, pure_eq, Bool.not_true, Bool.false_eq_true, if_false] at h
  rcases exec_bind.1 h with ⟨e, he, rfl⟩ | ⟨found, tr₁, tr₂, w₁, h₁, h₂, rfl⟩
  · exact (exec_getExperiment he).1
  obtain ⟨hacc₁, rfl, hfound⟩ := exec_getExperiment h₁
  refine hacc₁.append ?_
  cases hx : w₁.mlflow.experiments aliasName with
  | some expId =>
    rw [hfound found rfl, hx] at h₂
    obtain ⟨rfl, rfl, -⟩ := h₂
    exact .inl ⟨⟨_, rfl⟩, by simp⟩
  | none =>
    rw [hfound found rfl, hx] at h₂
    obtain ⟨out, tr₃, tr₄, w₂, h₃, h₄, rfl⟩ := exec_attempt_bind.1 h₂
    obtain ⟨hacc₃, ⟨expId, rfl, -⟩ | ⟨⟨e, rfl⟩, rfl⟩⟩ := exec_mlflowRequest h₃ trivial fun hh => by
      simp only [Handle, hx] at hh
      obtain ⟨expId, -, ha, -⟩ := hh
      exact ⟨expId, ha⟩
    · obtain ⟨rfl, rfl, -⟩ := h₄
      exact hacc₃.append (.inl ⟨⟨_, rfl⟩, by simp⟩)
    rcases exec_bind.1 h₄ with ⟨e', he', rfl⟩ | ⟨again, tr₅, tr₆, w₃, h₅, h₆, rfl⟩
    · obtain ⟨⟨_, ha⟩, -⟩ | ⟨e'', he'', st, hst, hf⟩ := (exec_getExperiment he').1
      · cases ha
      · cases he''
        exact .inr ⟨e', rfl, st, List.mem_append_right _ hst, hf⟩
    · obtain ⟨-, -, hagain⟩ := exec_getExperiment h₅
      rw [hagain again rfl, hx] at h₆
      obtain ⟨-, rfl, -⟩ := h₆
      exact hacc₃.raised

theorem exec_createRun_explained {r : Except PyExc Str}
    (h : Exec (Serves Lossless) (createRun i) w tr r w') : Explained tr r := by
  simp only [createRun, bind_eq] at h
  rcases exec_bind.1 h with ⟨e, he, rfl⟩ | ⟨found, tr₁, tr₂, w₁, h₁, h₂, rfl⟩
  · have hraised : Explained (tr ++ []) (.error e : Except PyExc Str) :=
      (exec_experimentId_explained he).raised
    rwa [List.append_nil] at hraised
  · refine (exec_experimentId_explained h₁).append (exec_mlflowRequest h₂ trivial ?_).1
    rintro a ⟨id, start, -, -, ha, -⟩
    exact ⟨id, ha⟩

end Create

section Finalize

/-- The calls of `finalize_run`. -/
def FinalizeCall (id : Str) : Call → Prop
  | .setTag id' _ _ => id' = id
  | .logParam id' _ _ => id' = id
  | .logMetric id' _ _ => id' = id
  | .setTerminated id' s => id' = id ∧ s = .finished
  | _ => False

theorem WriteCall.finalize {c : Call} (h : WriteCall id c) : FinalizeCall id c := by
  cases c <;> first | exact h | exact h.elim

theorem FinalizeCall.mlflow {c : Call} (h : FinalizeCall id c) : MlflowCall c := by
  cases c <;> first | exact trivial | exact h.elim

/-- A call of `finalize_run` on a run that exists is not refused, and the run goes on existing. -/
theorem serves_finalizeCall {c : Call} {l : Fate} {a : Ans c} (hc : FinalizeCall id c)
    (hrun : ∃ run, w.mlflow.runs id = some run) (h : Serves Lossless w c l a w') :
    (∃ run, w'.mlflow.runs id = some run) ∧
      (FinalizeCall id c ∧ (Succeeds ⟨c, l, a, w'⟩ ∨ ∃ e, FailsWith e ⟨c, l, a, w'⟩)) := by
  obtain ⟨run, hrun⟩ := hrun
  have hwrites : ∀ {f : Run → Run} {a' : Except PyExc Unit}, WritesRun w id f a' w' →
      (∃ run, w'.mlflow.runs id = some run) ∧ a' = .ok () := fun {f a'} hw => by
    rw [WritesRun, hrun] at hw
    obtain ⟨ha, rfl⟩ := hw
    exact ⟨⟨_, World.withRun_runs_self ..⟩, ha⟩
  rcases serves_mlflow hc.mlflow h with ⟨rfl, hh⟩ | ⟨rfl, x, rfl, rfl⟩
  · cases c with
    | setTag id' k v =>
      obtain rfl : id' = id := hc
      obtain ⟨hex, rfl⟩ := hwrites hh
      exact ⟨hex, rfl, .inl ⟨rfl, (), rfl⟩⟩
    | logParam id' k v =>
      obtain rfl : id' = id := hc
      obtain ⟨hex, rfl⟩ := hwrites hh
      exact ⟨hex, rfl, .inl ⟨rfl, (), rfl⟩⟩
    | logMetric id' k v =>
      obtain rfl : id' = id := hc
      obtain ⟨hex, rfl⟩ := hwrites hh
      exact ⟨hex, rfl, .inl ⟨rfl, (), rfl⟩⟩
    | setTerminated id' s =>
      obtain ⟨rfl, rfl⟩ : id' = id ∧ s = .finished := hc
      obtain ⟨hex, rfl⟩ := hwrites hh
      exact ⟨hex, ⟨rfl, rfl⟩, .inl ⟨rfl, (), rfl⟩⟩
    | _ => exact hc.elim
  · exact ⟨⟨run, hrun⟩, hc, .inr ⟨_, ⟨x, rfl⟩, rfl⟩⟩

theorem straight_recordContent (runId uri : Str) (metrics params tags : Option PyDict) :
    (recordContent runId uri metrics params tags).Straight := by
  refine Straight.bind (straight_foldlM (fun _ kv => ?_) _ ()) fun _ =>
    Straight.bind (straight_foldlM (fun _ kv => ?_) _ ()) fun _ =>
      Straight.bind (straight_foldlM (fun _ kv => ?_) _ ()) fun _ => ?_
  all_goals exact straight_perform _

/-- `finalize_run` after its validation stops at the first call that fails, with its exception. -/
theorem exec_finalizeCalls {uri : Str} {metrics params tags : Option PyDict} {r : Except PyExc Unit}
    (hrun : ∃ run, w.mlflow.runs id = some run)
    (h : Exec (Serves Lossless) ((recordContent id uri metrics params tags).bind fun _ =>
      request (.setTerminated id .finished)) w tr r w') :
    (∀ st ∈ tr, FinalizeCall id st.call) ∧ ((r = .ok () ∧ ∀ st ∈ tr, Succeeds st) ∨
      ∃ e before last, r = .error e ∧ tr = before ++ [last] ∧ (∀ st ∈ before, Succeeds st) ∧
        FailsWith e last) := by
  have hrecord : (recordContent id uri metrics params tags).Uses (FinalizeCall id) :=
    (uses_recordContent id uri metrics params tags).mono fun _ => WriteCall.finalize
  have huses := hrecord.bind fun _ => uses_request (c := .setTerminated id .finished) ⟨rfl, rfl⟩
  have hsteps := Exec.of_steps
    (Q := fun st => FinalizeCall id st.call ∧ (Succeeds st ∨ ∃ e, FailsWith e st)) huses
    (fun _ _ _ _ _ hc hw hs => serves_finalizeCall hc hw hs) h hrun
  have hstraight := (straight_recordContent id uri metrics params tags).bind fun _ =>
    straight_perform (Call.setTerminated id .finished)
  refine ⟨fun st hst => (hsteps st hst).1, ?_⟩
  have hok : ∀ st ∈ tr, (∃ v, st.answer = .ok v) → Succeeds st := fun st hst ⟨v, hv⟩ => by
    obtain ⟨-, hsucc | ⟨e, -, he⟩⟩ := hsteps st hst
    · exact hsucc
    · cases hv.symm.trans he
  rcases hstraight.exec h with ⟨⟨⟨⟩, rfl⟩, hall⟩ | ⟨e, before, last, rfl, rfl, hall, hlast⟩
  · exact .inl ⟨rfl, fun st hst => hok st hst (hall st hst)⟩
  · refine .inr ⟨e, before, last, rfl, rfl,
      fun st hst => hok st (List.mem_append_left _ hst) (hall st hst), ?_⟩
    obtain ⟨-, ⟨-, v, hv⟩ | ⟨e', hx, he'⟩⟩ := hsteps last (by simp)
    · cases hv.symm.trans hlast
    · exact ⟨hx, hlast⟩

end Finalize

section Body
variable (store fs args id)

/-- How the body of `log` comes to raise `e`: the plan is refused, the verified upload of a file
raises it, or all files are up and a call of `finalize_run` fails with it. Nothing follows. -/
inductive BodyFails (w : World) (e : PyExc) : List (Step Call Ans Fate World) → World → Prop where
  | plan (h : args.plan fs id = .error e) : BodyFails w e [] w
  | upload {planned : List (Str × Key)} {tr : List (Step Call Ans Fate World)} {w' : World}
      (hplan : args.plan fs id = .ok planned)
      (h : UploadRun Lossless fs store.traceBucket.name planned w tr (.error e) w') :
      BodyFails w e tr w'
  | finalize {planned : List (Str × Key)} {tr₁ before : List (Step Call Ans Fate World)}
      {last : Step Call Ans Fate World} {w₁ w' : World} (hplan : args.plan fs id = .ok planned)
      (h : UploadRun Lossless fs store.traceBucket.name planned w tr₁ (.ok ()) w₁)
      (hcalls : ∀ st ∈ before ++ [last], FinalizeCall id st.call)
      (hbefore : ∀ st ∈ before, Succeeds st) (hlast : FailsWith e last) :
      BodyFails w e (tr₁ ++ (before ++ [last])) w'

/-- The body of `log` when nothing fails: the verified uploads return, and every call of
`finalize_run` succeeds. -/
structure BodyRuns (w : World) (tr : List (Step Call Ans Fate World)) : Prop where
  runs : ∃ planned tr₁ tr₂ w₁, args.plan fs id = .ok planned ∧ tr = tr₁ ++ tr₂ ∧
    UploadRun Lossless fs store.traceBucket.name planned w tr₁ (.ok ()) w₁ ∧
    ∀ st ∈ tr₂, FinalizeCall id st.call ∧ Succeeds st

end Body

theorem UploadRun.outcome {b : Str} {planned : List (Str × Key)} {objs : List Key}
    {r : Except PyExc (List Key)}
    (h : Exec (Serves F) (uploadPlanned fs b planned objs) w tr r w') :
    (∀ objs', r = .ok objs' → UploadRun F fs b planned w tr (.ok ()) w') ∧
      ∀ e, r = .error e → UploadRun F fs b planned w tr (.error e) w' := by
  obtain ⟨out, hrun, rfl⟩ := exec_uploadPlanned h
  cases out with
  | ok u => exact ⟨fun _ _ => hrun, nofun⟩
  | error e' =>
    refine ⟨nofun, fun e he => ?_⟩
    cases he
    exact hrun

/-- An upload of a plan that raises ends with the verified upload of one of its files. -/
theorem UploadRun.raises {b : Str} {planned : List (Str × Key)}
    {r : Except PyExc Unit} (h : UploadRun F fs b planned w tr r w') (hr : r = .error e) :
    ∃ f ∈ planned, ∃ before seg u, tr = before ++ seg ∧
      Exec (Serves F) (uploadVerified fs f.1 b f.2) u seg (.error e) w' := by
  induction h with
  | done w => cases hr
  | failed hfile =>
    cases hr
    exact ⟨_, List.mem_cons_self, [], _, _, rfl, hfile⟩
  | @sent f planned w w₁ w' seg tr hex r hfile hrest ih =>
    obtain ⟨g, hg, before, last, u, rfl, hlast⟩ := ih hr
    exact ⟨g, List.mem_cons_of_mem f hg, seg ++ before, last, u, by rw [List.append_assoc], hlast⟩

theorem exec_body_outcome {r : Except PyExc Unit} (hrun : w.mlflow.runs id = some run)
    (hvalid : validateContent args.metrics (store.withNamespace args.tags) = .ok ())
    (h : Exec (Serves Lossless) (uploadAndFinalize store fs args id) w tr r w') :
    (r = .ok () ∧ BodyRuns store fs args id w tr) ∨
      ∃ e, r = .error e ∧ BodyFails store fs args id w e tr w' := by
  rw [uploadAndFinalize_eq, hvalid] at h
  cases hplan : args.plan fs id with
  | error e =>
    rw [hplan] at h
    obtain ⟨rfl, rfl, rfl⟩ := h
    exact .inr ⟨e, rfl, .plan hplan⟩
  | ok planned =>
    rw [hplan, ofExcept_ok, ret_bind] at h
    rcases exec_bind.1 h with ⟨e, he, rfl⟩ | ⟨objs, tr₁, tr₂, w₁, h₁, h₂, rfl⟩
    · exact .inr ⟨e, rfl, .upload hplan ((UploadRun.outcome he).2 e rfl)⟩
    have hup := (UploadRun.outcome h₁).1 objs rfl
    have huses := uses_uploadPlanned (b := store.traceBucket.name) fs
      (fun f (hf : f ∈ planned) => List.mem_map_of_mem (f := Prod.snd) hf) ([] : List Key)
    obtain ⟨ht, -⟩ := exec_uploadCalls huses h₁
    rw [ofExcept_ok, ret_bind] at h₂
    obtain ⟨hcalls, ⟨rfl, hall⟩ | ⟨e, before, last, rfl, rfl, hbefore, hlast⟩⟩ :=
      exec_finalizeCalls ⟨run, by rw [ht.mlflow, hrun]⟩ h₂
    · exact .inl ⟨rfl, planned, tr₁, tr₂, w₁, hplan, rfl, hup,
        fun st hst => ⟨hcalls st hst, hall st hst⟩⟩
    · exact .inr ⟨e, rfl, .finalize hplan hup hcalls hbefore hlast⟩

end Accel.Model
