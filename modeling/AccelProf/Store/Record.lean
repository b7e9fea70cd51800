import AccelProf.Store.Effects

/-! What `create_run` and `finalize_run` do to MLflow. -/

namespace Accel.Model
open Data Program Prog

variable {F : Call → Fate → Prop} {w w₀ w₁ w' : World} {tr : List (Step Call Ans Fate World)}
  {id : Str} {run : Run}

section Content
variable {α : Type}

/-- The record with the content a caller gave and the location of the artifacts. -/
def recorded (uri : Str) (metrics params tags : Option PyDict) (run : Run) : Run :=
  let run := (dictItems tags).foldl (fun r kv => Run.setTag kv.1 kv.2.toStr r) run
  let run := (dictItems params).foldl (fun r kv => Run.logParam kv.1 kv.2.toStr r) run
  let run := (dictItems metrics).foldl (fun r kv => Run.logMetric kv.1 (kv.2.toFloat.getD .nan) r)
    run
  run.setTag artifactsUriTag uri

structure HasContent (uri : Str) (metrics params tags : Option PyDict) (run : Run) : Prop where
  tags : ∀ kv ∈ dictItems tags, run.tags kv.1 = some kv.2.toStr
  params : ∀ kv ∈ dictItems params, run.params kv.1 = some kv.2.toStr
  metrics : ∀ kv ∈ dictItems metrics, ∃ x, kv.2.toFloat = some x ∧ run.metrics kv.1 = some x
  artifactsUri : run.tags artifactsUriTag = some uri

theorem dictItems_nodup (d : Option PyDict) : ((dictItems d).map Prod.fst).Nodup := by
  cases d with
  | none => exact List.nodup_nil
  | some d => exact d.nodup

/-- Writing items leaves every other key. -/
theorem foldl_update_of_not_mem {β : Type} {items : List (Str × α)} (g : α → β) (f : Str → Option β)
    {k : Str} (hk : k ∉ items.map Prod.fst) :
    items.foldl (fun (f : Str → Option β) kv => Function.update f kv.1 (some (g kv.2))) f k =
      f k := by
  induction items generalizing f with
  | nil => rfl
  | cons x xs ih =>
    simp only [List.map_cons, List.mem_cons, not_or] at hk
    rw [List.foldl_cons, ih _ hk.2, Function.update_of_ne hk.1]

theorem foldl_update_of_mem {β : Type} {items : List (Str × α)} (hnd : (items.map Prod.fst).Nodup)
    (g : α → β) (f : Str → Option β) {kv : Str × α} (hkv : kv ∈ items) :
    items.foldl (fun (f : Str → Option β) kv => Function.update f kv.1 (some (g kv.2))) f kv.1 =
      some (g kv.2) := by
  induction items generalizing f with
  | nil => cases hkv
  | cons x xs ih =>
    obtain ⟨hx, hxs⟩ := List.nodup_cons.1 hnd
    rw [List.foldl_cons]
    rcases List.mem_cons.1 hkv with rfl | hkv
    · rw [foldl_update_of_not_mem g _ hx, Function.update_self]
    · exact ih hxs _ hkv

theorem foldl_setTag (items : List (Str × PyVal)) (run : Run) :
    items.foldl (fun r kv => Run.setTag kv.1 kv.2.toStr r) run = { run with
      tags := items.foldl (fun f kv => Function.update f kv.1 (some kv.2.toStr)) run.tags } := by
  induction items generalizing run with
  | nil => rfl
  | cons x xs ih => rw [List.foldl_cons, ih]; rfl

theorem foldl_logParam (items : List (Str × PyVal)) (run : Run) :
    items.foldl (fun r kv => Run.logParam kv.1 kv.2.toStr r) run = { run with
      params := items.foldl (fun f kv => Function.update f kv.1 (some kv.2.toStr))
        run.params } := by
  induction items generalizing run with
  | nil => rfl
  | cons x xs ih => rw [List.foldl_cons, ih]; rfl

theorem foldl_logMetric (items : List (Str × PyVal)) (run : Run) :
    items.foldl (fun r kv => Run.logMetric kv.1 (kv.2.toFloat.getD .nan) r) run = { run with
      metrics := items.foldl
        (fun f kv => Function.update f kv.1 (some (kv.2.toFloat.getD .nan))) run.metrics } := by
  induction items generalizing run with
  | nil => rfl
  | cons x xs ih => rw [List.foldl_cons, ih]; rfl

@[simp] theorem recorded_status (uri : Str) (metrics params tags : Option PyDict) (run : Run) :
    (recorded uri metrics params tags run).status = run.status := by
  simp only [recorded, foldl_setTag, foldl_logParam, foldl_logMetric]
  rfl

@[simp] theorem recorded_lifecycleStage (uri : Str) (metrics params tags : Option PyDict)
    (run : Run) :
    (recorded uri metrics params tags run).lifecycleStage = run.lifecycleStage := by
  simp only [recorded, foldl_setTag, foldl_logParam, foldl_logMetric]
  rfl

@[simp] theorem recorded_experimentId (uri : Str) (metrics params tags : Option PyDict)
    (run : Run) :
    (recorded uri metrics params tags run).experimentId = run.experimentId := by
  simp only [recorded, foldl_setTag, foldl_logParam, foldl_logMetric]
  rfl

/-- Content that passed validation: usable numbers, and no reserved tag. -/
theorem validateContent_ok {metrics tags : Option PyDict}
    (h : validateContent metrics tags = .ok ()) :
    (∀ kv ∈ dictItems metrics, ∃ x, kv.2.toFloat = some x) ∧
      ∀ kv ∈ dictItems tags, isReserved kv.1 = false := by
  rw [validateContent] at h
  cases hm : (dictItems metrics).forM checkMetric with
  | error e =>
    rw [hm] at h
    cases h
  | ok u =>
    rw [hm] at h
    refine ⟨fun kv hkv => ?_, fun kv hkv => ?_⟩
    · have := forM_ok.1 hm kv hkv
      rw [checkMetric] at this
      cases hx : kv.2.toFloat with
      | some x => exact ⟨x, rfl⟩
      | none =>
        rw [hx] at this
        cases this
    · have := forM_ok.1 h kv hkv
      rw [checkTag] at this
      cases hr : isReserved kv.1 with
      | false => rfl
      | true =>
        rw [hr, if_pos rfl] at this
        cases this

theorem hasContent_recorded (uri : Str) {metrics tags : Option PyDict} (params : Option PyDict)
    (h : validateContent metrics tags = .ok ()) (run : Run) :
    HasContent uri metrics params tags (recorded uri metrics params tags run) := by
  obtain ⟨hm, ht⟩ := validateContent_ok h
  simp only [recorded, foldl_setTag, foldl_logParam, foldl_logMetric]
  refine ⟨fun kv hkv => ?_, fun kv hkv => ?_, fun kv hkv => ?_, by simp [Run.setTag]⟩
  · have hne : kv.1 ≠ artifactsUriTag := fun he => by
      have hr := ht kv hkv
      rw [he] at hr
      exact absurd hr (by decide)
    exact (Function.update_of_ne hne ..).trans
      (foldl_update_of_mem (dictItems_nodup tags) PyVal.toStr _ hkv)
  · exact foldl_update_of_mem (dictItems_nodup params) PyVal.toStr _ hkv
  · obtain ⟨x, hx⟩ := hm kv hkv
    refine ⟨x, hx, ?_⟩
    have := foldl_update_of_mem (dictItems_nodup metrics) (fun v => v.toFloat.getD .nan)
      run.metrics hkv
    simp only [hx, Option.getD_some] at this
    exact this

end Content

section Writes

def WriteCall (id : Str) : Call → Prop
  | .setTag id' _ _ => id' = id
  | .logParam id' _ _ => id' = id
  | .logMetric id' _ _ => id' = id
  | _ => False

theorem WriteCall.quiet {c : Call} (h : WriteCall id c) : Quiet c := by
  cases c <;> trivial

/-- An answered call other than a batch delete was served. -/
theorem Serves.handle_of_ok {c : Call} {l : Fate} {a : Resp c} (h : Serves F w c l (.ok a) w')
    (hc : ∀ b keys, c ≠ .deleteObjects b keys) : Handle w c (.ok a) w' := by
  obtain ⟨-, h⟩ := h
  cases l with
  | ok => exact h
  | perKey errs => cases c <;> first | exact h.elim | exact absurd rfl (hc _ _)
  | fail e => cases h.1
  | lost e => cases h.1

theorem WritesRun.withRun {f : Run → Run} {a : Except PyExc Unit}
    (h : WritesRun (w₀.withRun id run) id f a w') : a = .ok () ∧ w' = w₀.withRun id (f run) := by
  rw [WritesRun, World.withRun_runs_self] at h
  exact ⟨h.1, h.2.trans (World.withRun_withRun ..)⟩

/-- Content calls change neither the status nor the lifecycle of the run, and nothing else. -/
theorem serves_writeCall {c : Call} {l : Fate} {a : Ans c} (hc : WriteCall id c)
    (h : Serves F (w₀.withRun id run) c l a w') : ∃ run', w' = w₀.withRun id run' ∧
      run'.status = run.status ∧ run'.lifecycleStage = run.lifecycleStage := by
  rcases h.effect with rfl | ⟨a', h⟩ | ⟨errs, h⟩
  · exact ⟨run, rfl, rfl, rfl⟩
  · cases c with
    | setTag id' k v =>
      obtain rfl : id' = id := hc
      exact ⟨_, (WritesRun.withRun h).2, rfl, rfl⟩
    | logParam id' k v =>
      obtain rfl : id' = id := hc
      exact ⟨_, (WritesRun.withRun h).2, rfl, rfl⟩
    | logMetric id' k v =>
      obtain rfl : id' = id := hc
      exact ⟨_, (WritesRun.withRun h).2, rfl, rfl⟩
    | _ => exact hc.elim
  · cases c <;> first | exact h.elim | exact hc.elim

theorem exec_writeCalls {α : Type} {p : Action α} {r : Except PyExc α} (hp : p.Uses (WriteCall id))
    (h : Exec (Serves F) p (w₀.withRun id run) tr r w') :
    (∃ run', w' = w₀.withRun id run' ∧ run'.status = run.status ∧
      run'.lifecycleStage = run.lifecycleStage) ∧
    ∀ st ∈ tr, Quiet st.call ∧ ∃ run', st.after = w₀.withRun id run' ∧
      run'.status = run.status ∧ run'.lifecycleStage = run.lifecycleStage := by
  have ⟨h', htr⟩ := Exec.of_uses (P := fun w => ∃ run', w = w₀.withRun id run' ∧
    run'.status = run.status ∧ run'.lifecycleStage = run.lifecycleStage) hp
    (fun _ _ _ _ _ hc ⟨run', hw, hs, hl⟩ hserve => by
      rw [hw] at hserve
      obtain ⟨run'', hw'', hs'', hl''⟩ := serves_writeCall hc hserve
      exact ⟨run'', hw'', hs''.trans hs, hl''.trans hl⟩) h ⟨run, rfl, rfl, rfl⟩
  exact ⟨h', fun st hst => ⟨(htr st hst).1.quiet, (htr st hst).2⟩⟩

theorem exec_writeLoop_ok {α : Type} {step : α → Action Unit} {g : Run → α → Run}
    (hstep : ∀ x run tr w', Exec (Serves F) (step x) (w₀.withRun id run) tr (.ok ()) w' →
      w' = w₀.withRun id (g run x)) {xs : List α}
    (h : Exec (Serves F) (xs.foldlM (fun _ x => step x) ()) (w₀.withRun id run) tr (.ok ()) w') :
    w' = w₀.withRun id (xs.foldl g run) := by
  induction xs generalizing run tr with
  | nil => exact h.2.2
  | cons x xs ih =>
    rw [List.foldlM_cons, bind_eq] at h
    obtain ⟨u, tr₁, tr₂, w₁, h₁, h₂, -⟩ := exec_bind_ok.1 h
    obtain rfl := hstep x run tr₁ w₁ h₁
    exact ih h₂

theorem exec_setTag_ok {k v : Str} (h : Exec (Serves F) (request (.setTag id k v))
    (w₀.withRun id run) tr (.ok ()) w') : w' = w₀.withRun id (run.setTag k v) := by
  obtain ⟨l, hs, -⟩ := exec_request.1 h
  exact (WritesRun.withRun (hs.handle_of_ok (by simp))).2

theorem exec_logParam_ok {k v : Str} (h : Exec (Serves F) (request (.logParam id k v))
    (w₀.withRun id run) tr (.ok ()) w') : w' = w₀.withRun id (run.logParam k v) := by
  obtain ⟨l, hs, -⟩ := exec_request.1 h
  exact (WritesRun.withRun (hs.handle_of_ok (by simp))).2

theorem exec_logMetric_ok {k : Str} {v : PyFloat} (h : Exec (Serves F) (request (.logMetric id k v))
    (w₀.withRun id run) tr (.ok ()) w') : w' = w₀.withRun id (run.logMetric k v) := by
  obtain ⟨l, hs, -⟩ := exec_request.1 h
  exact (WritesRun.withRun (hs.handle_of_ok (by simp))).2

/-- `finalize_run` without its validation and up to the status. -/
def recordContent (runId uri : Str) (metrics params tags : Option PyDict) : Action Unit :=
  ((dictItems tags).foldlM (fun _ kv => request (.setTag runId kv.1 kv.2.toStr)) ()).bind fun _ =>
  ((dictItems params).foldlM
    (fun _ kv => request (.logParam runId kv.1 kv.2.toStr)) ()).bind fun _ =>
  ((dictItems metrics).foldlM
    (fun _ kv => request (.logMetric runId kv.1 (kv.2.toFloat.getD .nan))) ()).bind fun _ =>
  request (.setTag runId artifactsUriTag uri)

theorem finalizeRun_eq (runId uri : Str) (metrics params tags : Option PyDict) :
    finalizeRun runId uri metrics params tags = (ofExcept (validateContent metrics tags)).bind
      fun _ => (recordContent runId uri metrics params tags).bind
        fun _ => request (.setTerminated runId .finished) := by
  simp only [finalizeRun, recordContent, bind_eq, bind_assoc]

theorem uses_recordContent (runId uri : Str) (metrics params tags : Option PyDict) :
    (recordContent runId uri metrics params tags).Uses (WriteCall runId) := by
  refine Uses.bind (uses_foldlM (fun _ kv _ => ?_) ()) fun _ =>
    Uses.bind (uses_foldlM (fun _ kv _ => ?_) ()) fun _ =>
      Uses.bind (uses_foldlM (fun _ kv _ => ?_) ()) fun _ => ?_
  all_goals exact uses_request rfl

theorem exec_recordContent_ok {uri : Str} {metrics params tags : Option PyDict}
    (h : Exec (Serves F) (recordContent id uri metrics params tags) (w₀.withRun id run) tr
      (.ok ()) w') :
    w' = w₀.withRun id (recorded uri metrics params tags run) := by
  obtain ⟨_, _, _, w₁, h₁, h, -⟩ := exec_bind_ok.1 h
  obtain rfl := exec_writeLoop_ok (g := fun r kv => Run.setTag kv.1 kv.2.toStr r)
    (fun _ _ _ _ => exec_setTag_ok) h₁
  obtain ⟨_, _, _, w₂, h₂, h, -⟩ := exec_bind_ok.1 h
  obtain rfl := exec_writeLoop_ok (g := fun r kv => Run.logParam kv.1 kv.2.toStr r)
    (fun _ _ _ _ => exec_logParam_ok) h₂
  obtain ⟨_, _, _, w₃, h₃, h, -⟩ := exec_bind_ok.1 h
  obtain rfl := exec_writeLoop_ok
    (g := fun r kv => Run.logMetric kv.1 (kv.2.toFloat.getD .nan) r)
    (fun _ _ _ _ => exec_logMetric_ok) h₃
  exact exec_setTag_ok h

end Writes

end Accel.Model
