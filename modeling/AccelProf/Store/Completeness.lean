import AccelProf.Store.Atomicity

/-! The completeness contract when answers may be lost: a finished run is complete unless the answer
to the last call of `log` got lost and the clean-up then deleted an artifact. -/

namespace Accel.Model
open Data Program Prog

variable {F : Call → Fate → Prop} {w w₁ w₂ w' : World} {tr : List (Step Call Ans Fate World)}
  {store : Store} {fs : LocalFs} {args : LogArgs} {id i : Str} {run : Run} {b : Str} {key : Key}

/-- A run that MLflow shows as finished has all its content and artifacts. -/
def CompleteAt (store : Store) (fs : LocalFs) (args : LogArgs) (id : Str) (w : World) : Prop :=
  IsFinished id w →
    (∃ run, w.mlflow.runs id = some run ∧
      HasContent (args.uri store id) args.metrics args.params (store.withNamespace args.tags) run) ∧
    ∃ planned, args.plan fs id = .ok planned ∧
      ∀ f ∈ planned, Holds fs store.traceBucket.name f.1 f.2 w

/-- The run was marked finished, and the answer to that got lost. -/
def FinishLost (id : Str) (tr : List (Step Call Ans Fate World)) : Prop :=
  ∃ st ∈ tr, st.call = .setTerminated id .finished ∧ ∃ e, st.label = .lost e

/-- Some planned artifact was deleted. -/
def ArtifactsRemoved (store : Store) (fs : LocalFs) (args : LogArgs) (id : Str)
    (tr : List (Step Call Ans Fate World)) : Prop :=
  ∃ planned, args.plan fs id = .ok planned ∧
    ∃ f ∈ planned, ∃ st ∈ tr, Removes store.traceBucket.name f.2 st

/-- A call of a prefix deletion leaves an object that it does not remove. -/
theorem Holds.of_not_removes {path : Str} {c : Call} {l : Fate} {a : Ans c} (hc : DeleteCall c)
    (h : Serves F w c l a w') (hr : ¬ Removes b key ⟨c, l, a, w'⟩) (hw : Holds fs b path key w) :
    Holds fs b path key w' := by
  cases c with
  | listObjects b' pre => rwa [(serves_listObjects h).1]
  | deleteObjects b' keys =>
    obtain ⟨t, hw⟩ := hw
    refine ⟨t, ?_⟩
    rw [serves_deleteObjects_eq h]
    by_cases hb : b = b'
    · subst hb
      rw [World.deleteKeys_s3_self, SortedMap.mem_restrict_entries, decide_eq_true_iff]
      exact ⟨hw, fun hm => hr ⟨keys, rfl, List.mem_filter.1 hm⟩⟩
    · rwa [World.deleteKeys, World.setBucket_s3_ne hb]
  | _ => exact hc.elim

section OneRun

def OnRun (id : Str) : Call → Prop
  | .createExperiment _ => False
  | .createRun .. => False
  | .deleteRun _ => False
  | .setTag id' _ _ => id' = id
  | .logParam id' _ _ => id' = id
  | .logMetric id' _ _ => id' = id
  | .setTerminated id' _ => id' = id
  | _ => True

theorem DeleteCall.onRun {c : Call} (h : DeleteCall c) : OnRun id c := by
  cases c <;> first | exact h.elim | trivial

theorem UploadCall.onRun {S : Key → Prop} {c : Call} (h : UploadCall b S c) : OnRun id c := by
  cases c <;> first | exact h.elim | trivial

theorem WriteCall.onRun {c : Call} (h : WriteCall id c) : OnRun id c := by
  cases c <;> first | exact h | exact h.elim

theorem serves_onRun {c : Call} {l : Fate} {a : Ans c} (hc : OnRun id c) (hi : i ≠ id)
    (h : Serves F w c l a w') : w'.mlflow.runs i = w.mlflow.runs i := by
  have hwrite : ∀ {f : Run → Run} {a' w'}, WritesRun w id f a' w' →
      w'.mlflow.runs i = w.mlflow.runs i := fun {f a' w'} h' => by
    rw [WritesRun] at h'
    split at h'
    · rw [h'.2]
    · rw [h'.2, World.withRun_runs_ne hi]
  rcases h.effect with rfl | ⟨a', h⟩ | ⟨errs, h⟩
  · rfl
  · cases c with
    | setTag id' k v => exact hwrite (hc ▸ h)
    | logParam id' k v => exact hwrite (hc ▸ h)
    | logMetric id' k v => exact hwrite (hc ▸ h)
    | setTerminated id' s => exact hwrite (hc ▸ h)
    | deleteObjects b keys => rw [h.2]; rfl
    | putObject b key body =>
      obtain ⟨-, t, rfl⟩ := h
      rfl
    | uploadFile path b key body hex =>
      obtain ⟨-, t, rfl⟩ := h
      rfl
    | createExperiment name => exact hc.elim
    | createRun expId tags name => exact hc.elim
    | deleteRun id' => exact hc.elim
    | getExperimentByName name => rw [h.2]
    | sleep t => rw [h.2]
    | _ => rw [h.1]
  · cases c <;> first | exact h.elim | rw [h.2]; rfl

theorem uses_uploadAndFinalize (store : Store) (fs : LocalFs) (args : LogArgs) (id : Str) :
    (uploadAndFinalize store fs args id).Uses (OnRun id) := by
  have hset : (request (.setTerminated id .finished)).Uses (OnRun id) := uses_request rfl
  rw [uploadAndFinalize_eq]
  refine (uses_ofExcept _).bind fun planned => Uses.bind ?_ fun _ => (uses_ofExcept _).bind fun _ =>
    ((uses_recordContent ..).mono fun _ => WriteCall.onRun).bind fun _ => hset
  exact (uses_uploadPlanned (S := fun _ => True) fs (fun _ _ => trivial) _).mono
    fun _ => UploadCall.onRun

theorem uses_cleanUp (uri id : Str) : (cleanUp uri id).Uses (OnRun id) := by
  have hset : (request (.setTerminated id .failed)).Uses (OnRun id) := uses_request rfl
  exact (((uses_deletePrefix uri).mono fun _ => DeleteCall.onRun).attempt).bind fun _ =>
    hset.attempt.bind fun _ => trivial

end OneRun

section Points

/-- A step after which the run is not finished and that did not lose the answer to finishing it. -/
def Unfinished (id : Str) (st : Step Call Ans Fate World) : Prop :=
  ¬ IsFinished id st.after ∧ ¬ (st.call = .setTerminated id .finished ∧ ∃ e, st.label = .lost e)

theorem not_finished_of_none (h : w.mlflow.runs id = none) : ¬ IsFinished id w := by
  rintro ⟨run, hrun, -⟩
  cases h.symm.trans hrun

theorem unfinished_of_quiet {st : Step Call Ans Fate World} (hq : Quiet st.call)
    (h : ¬ IsFinished id st.after) : Unfinished id st := by
  refine ⟨h, fun hst => ?_⟩
  rw [hst.1] at hq
  exact hq

/-- An execution in which the run is finished at no point. -/
theorem complete_iff_of_unfinished (hw : ¬ IsFinished id w') (hpts : ∀ st ∈ tr, Unfinished id st) :
    (CompleteAt store fs args id w' ∧ ∀ st ∈ tr, CompleteAt store fs args id st.after) ↔
      ¬ (FinishLost id tr ∧ ArtifactsRemoved store fs args id tr) := by
  refine iff_of_true ⟨fun h => absurd h hw, fun st hst h => absurd h (hpts st hst).1⟩ ?_
  rintro ⟨⟨st, hst, hlost⟩, -⟩
  exact (hpts st hst).2 hlost

theorem createRun_unfinished {r : Except PyExc Str} (hid : w.mlflow.runs id = none)
    (h : Exec (Serves F) (createRun args.identity) w tr r w') :
    ¬ IsFinished id w' ∧ ∀ st ∈ tr, Quiet st.call ∧ ¬ IsFinished id st.after := by
  obtain ⟨hpts, hend⟩ := exec_createRun h
  have hreg : ∀ {w₁}, Registers args.identity.aliasName w w₁ → ¬ IsFinished id w₁ :=
    fun hr => not_finished_of_none (by rw [hr.runs, hid])
  have hw' : ¬ IsFinished id w' := by
    rcases hend with ⟨hr, -⟩ | ⟨id₀, expId, start, hc, -⟩
    · exact hreg hr
    · by_cases hi : id = id₀
      · subst hi
        rintro ⟨run, hrun, hs⟩
        cases hc.run.symm.trans hrun
        cases hs
      · exact not_finished_of_none (by rw [hc.runs, Function.update_of_ne hi, hid])
  refine ⟨hw', fun st hst => ⟨(hpts st hst).1, ?_⟩⟩
  rcases (hpts st hst).2 with hr | hst
  · exact hreg hr
  · rwa [hst]

theorem onRun_unfinished {α : Type} {p : Action α} {r : Except PyExc α} (hp : p.Uses (OnRun id))
    (hi : i ≠ id) (hw : w.mlflow.runs i = none) (h : Exec (Serves F) p w tr r w') :
    w'.mlflow.runs i = none ∧ ∀ st ∈ tr, Unfinished i st := by
  have ⟨h', htr⟩ := Exec.of_uses (P := fun w => w.mlflow.runs i = none) hp
    (fun _ _ _ _ _ hc hw hs => (serves_onRun hc hi hs).trans hw) h hw
  refine ⟨h', fun st hst => ⟨not_finished_of_none (htr st hst).2, fun hc => ?_⟩⟩
  have := (htr st hst).1
  rw [hc.1] at this
  exact hi this

theorem serves_setFailed {l : Fate} {a : Ans (.setTerminated id .failed)}
    (h : Serves F w (.setTerminated id .failed) l a w') : w' = w ∨ ¬ IsFinished id w' := by
  rcases h.effect with rfl | ⟨a', h⟩ | ⟨errs, h⟩
  · exact .inl rfl
  · simp only [Handle, WritesRun] at h
    split at h
    · exact .inl h.2
    · refine .inr ?_
      rintro ⟨run, hrun, hs⟩
      rw [h.2, World.withRun_runs_self] at hrun
      cases hrun
      cases hs
  · exact h.elim

theorem cleanUp_unfinished {uri : Str} {r : Except PyExc Unit} (hw : ¬ IsFinished id w)
    (h : Exec (Serves F) (cleanUp uri id) w tr r w') :
    ¬ IsFinished id w' ∧ ∀ st ∈ tr, Unfinished id st := by
  obtain ⟨-, trd, rd, w₁, l, a, hd, rfl, hs⟩ := exec_cleanUp h
  obtain ⟨hml, hpts⟩ := deletePrefix_mlflow hd
  have hnot : ∀ {v : World}, v.mlflow = w.mlflow → ¬ IsFinished id v := fun hv hf => hw (by
    rwa [IsFinished, hv] at hf)
  have hw' : ¬ IsFinished id w' := by
    rcases serves_setFailed hs with rfl | h
    · exact hnot hml
    · exact h
  refine ⟨hw', fun st hst => ?_⟩
  rcases List.mem_append.1 hst with hst | hst
  · refine ⟨hnot (hpts st hst), fun hc => ?_⟩
    have := ((Exec.of_uses (P := fun _ => True) (uses_deletePrefix uri)
      (fun _ _ _ _ _ _ _ _ => trivial) hd trivial).2 st hst).1
    rw [hc.1] at this
    exact this
  · rw [List.mem_singleton.1 hst]
    exact ⟨hw', by simp⟩

/-- The clean-up of a run that is finished and complete. -/
theorem cleanUp_complete_iff {planned : List (Str × Key)} {uri : Str} {r : Except PyExc Unit}
    (hplan : args.plan fs id = .ok planned) (hrun : w.mlflow.runs id = some run)
    (hfin : run.status = some .finished)
    (hcontent : HasContent (args.uri store id) args.metrics args.params
      (store.withNamespace args.tags) run)
    (hholds : ∀ f ∈ planned, Holds fs store.traceBucket.name f.1 f.2 w)
    (h : Exec (Serves F) (cleanUp uri id) w tr r w') :
    (CompleteAt store fs args id w' ∧ ∀ st ∈ tr, CompleteAt store fs args id st.after) ↔
      ¬ ArtifactsRemoved store fs args id tr := by
  obtain ⟨-, trd, rd, w₁, l, a, hd, rfl, hs⟩ := exec_cleanUp h
  obtain ⟨hml, hpts⟩ := deletePrefix_mlflow hd
  have hiff : ∀ {v : World}, v.mlflow = w.mlflow → (CompleteAt store fs args id v ↔
      ∀ f ∈ planned, Holds fs store.traceBucket.name f.1 f.2 v) := by
    intro v hv
    constructor
    · intro hc
      obtain ⟨-, planned', hplan', hholds'⟩ := hc ⟨run, by rw [hv, hrun], hfin⟩
      cases hplan.symm.trans hplan'
      exact hholds'
    · exact fun hh _ => ⟨⟨run, by rw [hv, hrun], hcontent⟩, planned, hplan, hh⟩
  constructor
  · rintro ⟨-, hall⟩ ⟨planned', hplan', f, hf, st, hst, hr⟩
    cases hplan.symm.trans hplan'
    rcases List.mem_append.1 hst with hst' | hst'
    · obtain ⟨w₀, hs₀⟩ := hd.of_mem hst'
      obtain ⟨t, hm⟩ := (hiff (hpts st hst')).1 (hall st hst) f hf
      exact not_mem_of_removes hr hs₀ (SortedMap.mem_of_entry hm)
    · obtain ⟨keys, hc, -⟩ := hr
      rw [List.mem_singleton.1 hst'] at hc
      cases hc
  · intro hno
    -- no planned file is removed by any step, so each of them is held throughout
    have hd' : Exec (fun w c l a w' => Serves F w c l a w' ∧
        ∀ f ∈ planned, ¬ Removes store.traceBucket.name f.2 ⟨c, l, a, w'⟩) _ _ _ _ _ :=
      hd.restrict fun v st hst hs =>
        ⟨hs, fun f hf hr => hno ⟨planned, hplan, f, hf, st, List.mem_append_left _ hst, hr⟩⟩
    have ⟨hend, htr⟩ := Exec.of_uses
      (P := fun v => ∀ f ∈ planned, Holds fs store.traceBucket.name f.1 f.2 v)
      (uses_deletePrefix uri) (fun _ _ _ _ _ hc hP hs f hf =>
        (hP f hf).of_not_removes hc hs.1 (hs.2 f hf)) hd' hholds
    have hw' : CompleteAt store fs args id w' := by
      rcases serves_setFailed hs with rfl | hn
      · exact (hiff hml).2 hend
      · exact fun hf => absurd hf hn
    refine ⟨hw', fun st hst => ?_⟩
    rcases List.mem_append.1 hst with hst | hst
    · exact (hiff (hpts st hst)).2 (htr st hst).2
    · rwa [List.mem_singleton.1 hst]

end Points

section Log

/-- A step that deletes nothing and after which the contract holds. -/
def Keeps (store : Store) (fs : LocalFs) (args : LogArgs) (id : Str)
    (st : Step Call Ans Fate World) : Prop :=
  (∀ b keys, st.call ≠ .deleteObjects b keys) ∧ CompleteAt store fs args id st.after

theorem keeps_of_quiet {st : Step Call Ans Fate World} (hq : Quiet st.call)
    (h : ¬ IsFinished id st.after) : Keeps store fs args id st := by
  refine ⟨fun b keys hc => ?_, fun hf => absurd hf h⟩
  rw [hc] at hq
  exact hq

theorem artifactsRemoved_append {pre : List (Step Call Ans Fate World)}
    (hpre : ∀ st ∈ pre, Keeps store fs args id st) :
    ArtifactsRemoved store fs args id (pre ++ tr) ↔ ArtifactsRemoved store fs args id tr := by
  constructor
  · rintro ⟨planned, hplan, f, hf, st, hst, hr⟩
    refine ⟨planned, hplan, f, hf, st, ?_, hr⟩
    obtain ⟨keys, hc, -⟩ := hr
    exact (List.mem_append.1 hst).resolve_left fun hst => (hpre st hst).1 _ _ hc
  · rintro ⟨planned, hplan, f, hf, st, hst, hr⟩
    exact ⟨planned, hplan, f, hf, st, List.mem_append_right _ hst, hr⟩

/-- The body of `log` either leaves the run unfinished or finishes it, as its last step, in a state
in which it is complete. -/
theorem exec_body_finishes {r : Except PyExc Unit} (hrun : w.mlflow.runs id = some run)
    (hst : run.status = some .running)
    (h : Exec (Serves F) (uploadAndFinalize store fs args id) w tr r w') :
    (¬ IsFinished id w' ∧ ∀ st ∈ tr, Unfinished id st) ∨
    (∀ st ∈ tr, Keeps store fs args id st) ∧ (∀ e, r = .error e → FinishLost id tr) ∧
      ∃ planned run', args.plan fs id = .ok planned ∧ w'.mlflow.runs id = some run' ∧
        run'.status = some .finished ∧ HasContent (args.uri store id) args.metrics args.params
          (store.withNamespace args.tags) run' ∧
        ∀ f ∈ planned, Holds fs store.traceBucket.name f.1 f.2 w' := by
  rcases exec_uploadAndFinalize hrun h with ⟨-, hw, hpts⟩ | ⟨planned, tr₀, l, w₁, hr, rfl, hpts, hs⟩
  · exact .inl ⟨hw.not_finished hst, fun st h => unfinished_of_quiet (hpts st h).1
      ((hpts st h).2.not_finished hst)⟩
  have hrun₁ : w₁.mlflow.runs id = some (args.record store id run) := by
    rw [hr.touches.mlflow, World.withRun_runs_self]
  have hpts₀ : ∀ st ∈ tr₀, Quiet st.call ∧ ¬ IsFinished id st.after :=
    fun st h => (hpts st h).imp_right fun h => h.not_finished hst
  rcases serves_setTerminated hrun₁ hs with ⟨rfl, e, rfl, -⟩ | ⟨rfl, hl⟩
  · have hw := (ready_working hr).not_finished hst
    refine .inl ⟨hw, fun st hst => ?_⟩
    rcases List.mem_append.1 hst with hst | hst
    · exact unfinished_of_quiet (hpts₀ st hst).1 (hpts₀ st hst).2
    · rw [List.mem_singleton.1 hst]
      exact ⟨hw, by simp⟩
  have hc := hasContent_recorded (args.uri store id) args.params hr.valid run
  have hcont : HasContent (args.uri store id) args.metrics args.params
      (store.withNamespace args.tags) ((args.record store id run).setStatus .finished) :=
    ⟨hc.tags, hc.params, hc.metrics, hc.artifactsUri⟩
  refine .inr ⟨fun st hst => ?_, ?_, planned, _, hr.plan, World.withRun_runs_self .., rfl, hcont,
    hr.holds⟩
  · rcases List.mem_append.1 hst with hst | hst
    · exact keeps_of_quiet (hpts₀ st hst).1 (hpts₀ st hst).2
    · rw [List.mem_singleton.1 hst]
      exact ⟨by simp, fun _ => ⟨⟨_, World.withRun_runs_self .., hcont⟩, planned, hr.plan, hr.holds⟩⟩
  · rintro e rfl
    obtain ⟨e', rfl, -⟩ := hl.resolve_left fun hl => by cases hl.2
    exact ⟨_, List.mem_append_right _ (List.mem_singleton_self _), rfl, e', rfl⟩

/-- The run of an execution of `log`, which was not there before, keeps the completeness contract at
every point exactly when the answer to finishing it was not lost or no planned artifact was deleted
afterwards. -/
theorem log_complete_iff {r : Except PyExc Str} (hid : w.mlflow.runs id = none)
    (h : Exec (Serves F) (log store fs args) w tr r w') :
    (CompleteAt store fs args id w' ∧ ∀ st ∈ tr, CompleteAt store fs args id st.after) ↔
      ¬ (FinishLost id tr ∧ ArtifactsRemoved store fs args id tr) := by
  have happ : ∀ {P : Step Call Ans Fate World → Prop} {tr₁ tr₂ : List (Step Call Ans Fate World)},
      (∀ st ∈ tr₁, P st) → (∀ st ∈ tr₂, P st) → ∀ st ∈ tr₁ ++ tr₂, P st :=
    fun h₁ h₂ st hst => (List.mem_append.1 hst).elim (h₁ st) (h₂ st)
  rcases exec_log h with ⟨rfl, rfl, -⟩ | ⟨e, -, he⟩ | ⟨id₀, tr₁, w₁, tr₂, hcreate, -, hbody⟩
  · exact complete_iff_of_unfinished (not_finished_of_none hid) (by simp)
  · obtain ⟨hw, hpts⟩ := createRun_unfinished hid he
    exact complete_iff_of_unfinished hw fun st hst => unfinished_of_quiet (hpts st hst).1
      (hpts st hst).2
  obtain ⟨-, hpts₁⟩ := createRun_unfinished hid hcreate
  have hun₁ : ∀ st ∈ tr₁, Unfinished id st :=
    fun st hst => unfinished_of_quiet (hpts₁ st hst).1 (hpts₁ st hst).2
  obtain ⟨expId, start, hc⟩ := exec_createRun_ok hcreate
  by_cases hi : id = id₀
  swap
  · -- the execution is about another run
    have hw₁ : w₁.mlflow.runs id = none := by rw [hc.runs, Function.update_of_ne hi, hid]
    have hup := uses_uploadAndFinalize store fs args id₀
    rcases hbody with ⟨-, rfl, hb⟩ | ⟨e, w₂, tr₃, -, rfl, hb, hcl⟩
    · obtain ⟨hw, hpts₂⟩ := onRun_unfinished hup hi hw₁ hb
      exact complete_iff_of_unfinished (not_finished_of_none hw) (happ hun₁ hpts₂)
    · obtain ⟨hw, hpts₂⟩ := onRun_unfinished hup hi hw₁ hb
      obtain ⟨hw', hpts₃⟩ := onRun_unfinished (uses_cleanUp _ id₀) hi hw hcl
      exact complete_iff_of_unfinished (not_finished_of_none hw') (happ hun₁ (happ hpts₂ hpts₃))
  subst hi
  have hk₁ : ∀ st ∈ tr₁, Keeps store fs args id st :=
    fun st hst => keeps_of_quiet (hpts₁ st hst).1 (hpts₁ st hst).2
  rcases hbody with ⟨-, rfl, hb⟩ | ⟨e, w₂, tr₃, -, rfl, hb, hcl⟩
  · rcases exec_body_finishes hc.run rfl hb with ⟨hw, hpts₂⟩ |
      ⟨hk₂, -, planned, run, hplan, hrun, -, hcont, hholds⟩
    · exact complete_iff_of_unfinished hw (happ hun₁ hpts₂)
    have hk := happ hk₁ hk₂
    refine iff_of_true ⟨fun _ => ⟨⟨run, hrun, hcont⟩, planned, hplan, hholds⟩,
      fun st hst => (hk st hst).2⟩ ?_
    rintro ⟨-, hrm⟩
    rw [← List.append_nil (tr₁ ++ tr₂), artifactsRemoved_append hk] at hrm
    obtain ⟨_, _, _, _, _, hst, _⟩ := hrm
    cases hst
  · rcases exec_body_finishes hc.run rfl hb with ⟨hw, hpts₂⟩ |
      ⟨hk₂, hlost, planned, run, hplan, hrun, hfin, hcont, hholds⟩
    · obtain ⟨hw', hpts₃⟩ := cleanUp_unfinished hw hcl
      exact complete_iff_of_unfinished hw' (happ hun₁ (happ hpts₂ hpts₃))
    have hk := happ hk₁ hk₂
    obtain ⟨st, hst, hfl⟩ := hlost e rfl
    have hlost : FinishLost id (tr₁ ++ (tr₂ ++ tr₃)) := ⟨st, by simp [hst], hfl⟩
    rw [and_iff_right hlost, ← List.append_assoc, artifactsRemoved_append hk,
      ← cleanUp_complete_iff hplan hrun hfin hcont hholds hcl]
    exact and_congr_right fun _ => ⟨fun hall st hst => hall st (List.mem_append_right _ hst),
      happ fun st hst => (hk st hst).2⟩

/-- The answer to finishing a run is lost, and marking it failed does not get through. -/
def loseFinish : Call → Fate
  | .setTerminated _ .finished => .lost unavailable
  | .setTerminated _ .failed => .fail unavailable
  | _ => .ok

abbrev lostLog : List (Step Call Ans Fate World) × Except PyExc Str × World :=
  simulate loseFinish (log sampleStore sampleFs sampleArgs) noRuns

theorem lostLog_incomplete :
    sampleArgs.plan sampleFs (sampleRunId '0') = .ok [(['/', 't'], sampleArtifact)] ∧
      IsFinished (sampleRunId '0') lostLog.2.2 ∧ sampleArtifact ∉ lostLog.2.2.s3 ['b'] ∧
      ¬ CompleteAt sampleStore sampleFs sampleArgs (sampleRunId '0') lostLog.2.2 := by
  have hfin : IsFinished (sampleRunId '0') lostLog.2.2 := by decide +kernel
  have hgone : sampleArtifact ∉ lostLog.2.2.s3 ['b'] := by decide +kernel
  have hplan : sampleArgs.plan sampleFs (sampleRunId '0') = .ok [(['/', 't'], sampleArtifact)] := by
    rfl
  refine ⟨hplan, hfin, hgone, fun hc => ?_⟩
  obtain ⟨-, planned, hplan', hholds⟩ := hc hfin
  cases hplan.symm.trans hplan'
  obtain ⟨t, hm⟩ := hholds _ (List.mem_singleton_self _)
  exact hgone (SortedMap.mem_of_entry hm)

/-- The contract holds at every point of a `log` that is served; where the answer to finishing the
run is lost, so that its artifact is removed, it does not. -/
theorem log_complete_iff_loseFinish :
    (∃ tr r w', Exec (Serves fun _ _ => True) (log sampleStore sampleFs sampleArgs) noRuns tr r w' ∧
      CompleteAt sampleStore sampleFs sampleArgs (sampleRunId '0') w' ∧
      ∀ st ∈ tr, CompleteAt sampleStore sampleFs sampleArgs (sampleRunId '0') st.after) ∧
    ∃ tr r w', Exec (Serves fun _ _ => True) (log sampleStore sampleFs sampleArgs) noRuns tr r w' ∧
      FinishLost (sampleRunId '0') tr ∧
      ArtifactsRemoved sampleStore sampleFs sampleArgs (sampleRunId '0') tr := by
  constructor
  · have hserved := exec_simulate (log sampleStore sampleFs sampleArgs) noRuns
      (lossless_serve (fun _ => .ok) fun _ _ => by simp)
    have h : Exec (Serves fun _ _ => True) _ _ _ _ _ :=
      hserved.mono fun _ _ _ _ _ => Serves.mono fun _ _ _ => trivial
    refine ⟨_, _, _, h, (log_complete_iff rfl h).2 ?_⟩
    rintro ⟨⟨st, hst, hcall, e, hlost⟩, -⟩
    obtain ⟨w₀, hlossless, -⟩ := hserved.of_mem hst
    obtain ⟨path, b, key, body, hex, hupload⟩ := hlossless e hlost
    cases hcall.symm.trans hupload
  · have h : Exec (Serves fun _ _ => True) (log sampleStore sampleFs sampleArgs) noRuns lostLog.1
        lostLog.2.1 lostLog.2.2 := exec_simulate _ _ fun _ _ => trivial
    refine ⟨_, _, _, h, by_contra fun hno => ?_⟩
    exact lostLog_incomplete.2.2.2 ((log_complete_iff rfl h).2 hno).1

/-- The run ends finished, and its artifact is gone. -/
theorem log_finishes_incomplete : ∃ tr r w',
    Exec (Serves fun _ _ => True) (log sampleStore sampleFs sampleArgs) noRuns tr r w' ∧
      noRuns.mlflow.runs (sampleRunId '0') = none ∧
      sampleArgs.plan sampleFs (sampleRunId '0') = .ok [(['/', 't'], sampleArtifact)] ∧
      IsFinished (sampleRunId '0') w' ∧ sampleArtifact ∉ w'.s3 ['b'] ∧
      ¬ CompleteAt sampleStore sampleFs sampleArgs (sampleRunId '0') w' :=
  ⟨_, _, _, exec_simulate _ _ fun _ _ => trivial, rfl, lostLog_incomplete⟩

end Log

end Accel.Model
