import AccelProf.Store.Lookup

/-! What `log` recorded is what `resolve` returns, also after other calls of `log`, and a reserved
tag never gets that far. -/

namespace Accel.Model
open Data Program Prog

variable {F : Call → Fate → Prop} {w w₁ w₂ w' : World} {tr : List (Step Call Ans Fate World)}
  {store : Store} {fs : LocalFs} {args : LogArgs} {id k : Str} {run : Run}

/-- `d.get(k)` -/
def dictGet (d : Option PyDict) (k : Str) : Option PyVal := (dictItems d).lookup k

theorem mem_of_dictGet {d : Option PyDict} {v : PyVal} (h : dictGet d k = some v) :
    (k, v) ∈ dictItems d := by
  unfold dictGet at h
  generalize dictItems d = items at h
  induction items with
  | nil => cases h
  | cons x xs ih =>
    rw [List.lookup_cons] at h
    split at h
    · next hk =>
      obtain rfl := Option.some.inj h
      rw [beq_iff_eq.1 hk]
      exact List.mem_cons_self ..
    · exact List.mem_cons_of_mem _ (ih h)

theorem dictGet_of_mem {d : Option PyDict} {kv : Str × PyVal} (h : kv ∈ dictItems d) :
    dictGet d kv.1 = some kv.2 := by
  have hnd := dictItems_nodup d
  unfold dictGet
  generalize dictItems d = items at h hnd
  induction items with
  | nil => cases h
  | cons x xs ih =>
    obtain ⟨hx, hxs⟩ := List.nodup_cons.1 hnd
    rw [List.lookup_cons]
    rcases List.mem_cons.1 h with rfl | h
    · simp
    · have hne : kv.1 ≠ x.1 := fun he => hx (he ▸ List.mem_map_of_mem h)
      rw [beq_false_of_ne hne]
      exact ih h hxs

theorem dictGet_eq_none {d : Option PyDict} :
    dictGet d k = none ↔ k ∉ (dictItems d).map Prod.fst := by
  constructor
  · intro h hk
    obtain ⟨kv, hkv, rfl⟩ := List.mem_map.1 hk
    rw [dictGet_of_mem hkv] at h
    cases h
  · intro h
    cases hv : dictGet d k with
    | none => rfl
    | some v => exact absurd (List.mem_map_of_mem (mem_of_dictGet hv)) h

section Record

/-- Writing a dict's items one after another writes what it has for each key. -/
theorem foldl_update_dict {β : Type} (d : Option PyDict) (g : PyVal → β) (f : Str → Option β)
    (k : Str) :
    (dictItems d).foldl (fun (f : Str → Option β) kv => Function.update f kv.1 (some (g kv.2))) f
    k =
      (((dictGet d k).map g).or (f k)) := by
  cases hv : dictGet d k with
  | some v => exact foldl_update_of_mem (dictItems_nodup d) g f (mem_of_dictGet hv)
  | none => exact foldl_update_of_not_mem g f (dictGet_eq_none.1 hv)

variable (uri : Str) (metrics params tags : Option PyDict) (run : Run)

theorem recorded_tags (hk : k ≠ artifactsUriTag) : (recorded uri metrics params tags run).tags k =
    ((dictGet tags k).map PyVal.toStr).or (run.tags k) := by
  simp only [recorded, foldl_setTag, foldl_logParam, foldl_logMetric]
  exact (Function.update_of_ne hk ..).trans (foldl_update_dict ..)

theorem recorded_params : (recorded uri metrics params tags run).params k =
    ((dictGet params k).map PyVal.toStr).or (run.params k) := by
  simp only [recorded, foldl_setTag, foldl_logParam, foldl_logMetric]
  exact foldl_update_dict ..

theorem recorded_metrics : (recorded uri metrics params tags run).metrics k =
    ((dictGet metrics k).map fun v => v.toFloat.getD .nan).or (run.metrics k) := by
  simp only [recorded, foldl_setTag, foldl_logParam, foldl_logMetric]
  exact foldl_update_dict metrics (fun v => v.toFloat.getD .nan) run.metrics k

end Record

/-- The tag a caller gets for a key that is not reserved: its own, else the store's namespace. -/
def Store.effectiveTag (store : Store) (tags : Option PyDict) (k : Str) : Option Str :=
  match dictGet tags k with
  | some v => some v.toStr
  | none => if k = namespaceTag then store.namespaceName.filter (· ≠ []) else none

theorem withNamespace_get (store : Store) (tags : Option PyDict) (k : Str) :
    (dictGet (store.withNamespace tags) k).map PyVal.toStr = store.effectiveTag tags k := by
  have hplain : (store.namespaceName.filter (· ≠ []) = none ∨ dictGet tags namespaceTag ≠ none) →
      (dictGet tags k).map PyVal.toStr = store.effectiveTag tags k := fun h => by
    unfold Store.effectiveTag
    cases hv : dictGet tags k with
    | some v => rfl
    | none =>
      by_cases hk : k = namespaceTag
      · subst hk
        rw [if_pos rfl, h.resolve_right (absurd hv)]
        rfl
      · rw [if_neg hk]
        rfl
  unfold Store.withNamespace
  cases hns : store.namespaceName with
  | none => exact hplain (.inl (by rw [hns]; rfl))
  | some ns =>
    simp only
    split_ifs with hnil hmem
    · exact hplain (.inl (by rw [hns, hnil]; rfl))
    · exact hplain (.inr fun hn => dictGet_eq_none.1 hn hmem)
    · show ((((namespaceTag, .str ns) :: dictItems tags).lookup k).map PyVal.toStr) = _
      rw [List.lookup_cons, Store.effectiveTag]
      by_cases hk : k = namespaceTag
      · subst hk
        rw [dictGet_eq_none.2 hmem, hns]
        simp [Option.filter, hnil, PyVal.toStr]
      · rw [beq_false_of_ne hk]
        change (dictGet tags k).map PyVal.toStr = _
        cases dictGet tags k with
        | some v => rfl
        | none => simp [hk]

/-- The tag in which MLflow keeps a run's name. -/
def runNameTag : Str := "mlflow.runName".toList

/-- What a consumer gets back of what a producer logged. -/
structure Returned (store : Store) (args : LogArgs) (id : Str) (ref : RunRef) : Prop where
  runId : ref.runId = id
  usable : isUsable ref = true
  aliasName : ref.aliasName = some args.identity.aliasName
  chip : ref.chip = some args.identity.chip
  region : ref.region = some args.identity.region
  workloadId : ref.workloadId = some args.identity.workloadId
  artifactsUri : ref.artifactsUri =
    some (artifactsUri store.traceBucket.name args.identity.aliasName id)
  schema : ref.tags schemaVersionTag = some schemaVersion
  tags : ∀ k, isReserved k = false → k ≠ runNameTag → ref.tags k = store.effectiveTag args.tags k
  ownTags : ∀ k v, dictGet args.tags k = some v → ref.tags k = some v.toStr
  params : ∀ k, ref.params k = (dictGet args.params k).map PyVal.toStr
  metrics : ∀ k, ref.metrics k = (dictGet args.metrics k).bind PyVal.toFloat
  finite : ∀ k x, ref.metrics k = some x → x.isFinite = true

theorem isReserved_iff : isReserved k = true ↔ k ∈ reservedTags := by simp [isReserved]

/-- The creation tags hold nothing but reserved keys. -/
theorem newRun_tags {expId : Str} {i : Identity} {start : Option Int} (hr : isReserved k = false)
    (hn : k ≠ runNameTag) : (newRun expId (creationTags i) (runName i) start).tags k = none := by
  have hne : ∀ t ∈ reservedTags, (k == t) = false := fun t ht =>
    beq_false_of_ne (not_reserved_ne hr (isReserved_iff.2 ht))
  have hn' : (k == "mlflow.runName".toList) = false := beq_false_of_ne hn
  simp only [reservedTags, List.forall_mem_cons] at hne
  obtain ⟨h₁, h₂, h₃, h₄, -, h₆, -⟩ := hne
  simp only [newRun, creationTags, List.lookup, hn', h₁, h₂, h₃, h₄, h₆]

theorem checkMetric_finite {item : Str × PyVal} (h : checkMetric item = .ok ()) :
    ∃ x, item.2.toFloat = some x ∧ x.isFinite = true := by
  unfold checkMetric at h
  cases hx : item.2.toFloat with
  | none =>
    rw [hx] at h
    cases h
  | some x =>
    rw [hx] at h
    simp only at h
    split_ifs at h with hf
    exact ⟨x, rfl, hf⟩

theorem validateContent_finite {metrics tags : Option PyDict}
    (h : validateContent metrics tags = .ok ()) {v : PyVal} (hv : dictGet metrics k = some v) :
    ∃ x, v.toFloat = some x ∧ x.isFinite = true := by
  rw [validateContent] at h
  cases hm : (dictItems metrics).forM checkMetric with
  | error e =>
    rw [hm] at h
    cases h
  | ok u => exact checkMetric_finite (forM_ok.1 hm _ (mem_of_dictGet hv))

theorem effectiveTag_reserved
    (hv : validateContent args.metrics (store.withNamespace args.tags) = .ok ())
    (hr : isReserved k = true) : store.effectiveTag args.tags k = none := by
  rw [← withNamespace_get]
  cases hg : dictGet (store.withNamespace args.tags) k with
  | none => rfl
  | some v =>
    have := (validateContent_ok hv).2 _ (mem_of_dictGet hg)
    rw [hr] at this
    cases this

theorem returned_of_record (id expId : Str) (start : Option Int)
    (hv : validateContent args.metrics (store.withNamespace args.tags) = .ok ()) :
    Returned store args id (toRef (id, (args.record store id
      (newRun expId (creationTags args.identity) (runName args.identity) start)).setStatus
        .finished)) := by
  let run := newRun expId (creationTags args.identity) (runName args.identity) start
  have htags : ∀ k, k ≠ artifactsUriTag → (args.record store id run).tags k =
      (store.effectiveTag args.tags k).or (run.tags k) := fun k hk => by
    rw [LogArgs.record, recorded_tags _ _ _ _ _ hk, withNamespace_get]
  -- validation has kept the caller away from the reserved tags
  have hres : ∀ k, k ≠ artifactsUriTag → isReserved k = true →
      (args.record store id run).tags k = run.tags k := fun k hk hr => by
    rw [htags k hk, effectiveTag_reserved hv hr]
    rfl
  have hown : ∀ k v, dictGet args.tags k = some v → store.effectiveTag args.tags k = some v.toStr :=
    fun k v hkv => by rw [Store.effectiveTag, hkv]
  have hmetrics : ∀ k, (args.record store id run).metrics k =
      (dictGet args.metrics k).bind PyVal.toFloat := fun k => by
    rw [LogArgs.record, recorded_metrics]
    cases hg : dictGet args.metrics k with
    | none => rfl
    | some v =>
      obtain ⟨x, hx, -⟩ := validateContent_finite hv hg
      simp [hx]
  refine ⟨rfl, ?_, hres aliasTag (by decide) (by decide), hres chipTag (by decide) (by decide),
    hres regionTag (by decide) (by decide), hres workloadTag (by decide) (by decide),
    (hasContent_recorded (args.uri store id) args.params hv run).artifactsUri, hres schemaVersionTag
      (by decide) (by decide),
    fun k hr hn => ?_, fun k v hkv => ?_, fun k => ?_, hmetrics, fun k x hx => ?_⟩
  · rw [isUsable_toRef, isUsableRun, Bool.and_eq_true, decide_eq_true_eq, decide_eq_true_eq]
    exact ⟨rfl, recorded_lifecycleStage (args.uri store id) ..⟩
  · refine (htags k (not_reserved_ne hr (by decide))).trans ?_
    rw [newRun_tags hr hn, Option.or_none]
  -- the tag that is written last is reserved, so it is none of the caller's
  · have hk : k ≠ artifactsUriTag := by
      rintro rfl
      have hnone := effectiveTag_reserved hv (k := artifactsUriTag) (by decide)
      rw [hown _ v hkv] at hnone
      cases hnone
    refine (htags k hk).trans ?_
    rw [hown k v hkv, Option.some_or]
  · refine (recorded_params (args.uri store id) ..).trans ?_
    exact Option.or_none
  · have hx' := (hmetrics k).symm.trans hx
    obtain ⟨v, hg, hv'⟩ := Option.bind_eq_some_iff.1 hx'
    obtain ⟨y, hy, hfin⟩ := validateContent_finite hv hg
    obtain rfl := Option.some.inj (hv'.symm.trans hy)
    exact hfin

theorem exec_log_ok (h : Exec (Serves F) (log store fs args) w tr (.ok id) w') :
    validateContent args.metrics (store.withNamespace args.tags) = .ok () ∧
      Logged store fs args id w w' := by
  rcases exec_log h with ⟨-, -, e, he, -⟩ | ⟨e, he, -⟩ | ⟨id', tr₁, w₁, tr₂, hcreate, -, hbody⟩
  · cases he
  · cases he
  rcases hbody with ⟨hr, -, hbody⟩ | ⟨e, w₂, tr₃, hr, -⟩
  · obtain rfl := Except.ok.inj hr
    obtain ⟨expId, start, hc⟩ := exec_createRun_ok hcreate
    obtain ⟨planned, w₂, hready, rfl⟩ := exec_body_ok hc.run hbody
    exact ⟨hready.valid, logged_of_ready hc hready⟩
  · cases hr

/-- Content that does not pass makes `log` raise before its first call. -/
theorem exec_log_invalid {r : Except PyExc Str}
    (hv : validateContent args.metrics (store.withNamespace args.tags) ≠ .ok ())
    (h : Exec (Serves F) (log store fs args) w tr r w') : tr = [] ∧ w' = w ∧ ∃ e, r = .error e := by
  simp only [log, bind_eq] at h
  cases hi : validateIdentity args.identity with
  | error e =>
    rw [hi] at h
    obtain ⟨rfl, rfl, rfl⟩ := h
    exact ⟨rfl, rfl, e, rfl⟩
  | ok u =>
    rw [hi, ofExcept_ok, ret_bind] at h
    cases hc : validateContent args.metrics (store.withNamespace args.tags) with
    | error e =>
      rw [hc] at h
      obtain ⟨rfl, rfl, rfl⟩ := h
      exact ⟨rfl, rfl, e, rfl⟩
    | ok u' => exact absurd hc hv

theorem validateContent_reserved {kv : Str × PyVal} (hkv : kv ∈ dictItems args.tags)
    (hr : isReserved kv.1 = true) :
    validateContent args.metrics (store.withNamespace args.tags) ≠ .ok () := by
  intro hv
  have hnone := effectiveTag_reserved hv hr
  rw [Store.effectiveTag, dictGet_of_mem hkv] at hnone
  cases hnone

/-- Calls of `log` by anybody, one after another, whatever happens to them. -/
abbrev Logs (F : Call → Fate → Prop) : World → World → Prop :=
  Relation.ReflTransGen fun w w' => ∃ store fs args tr r,
    Exec (Serves F) (log store fs args) w tr r w'

theorem Logs.keeps (h : Logs F w w') (hrun : w.mlflow.runs id = some run) :
    w'.mlflow.runs id = some run := by
  induction h with
  | refl => exact hrun
  | tail _ hop ih =>
    obtain ⟨store, fs, args, tr, r, hop⟩ := hop
    exact exec_log_keeps ih hop

theorem Logs.remains (h : Logs F w w') : Remains w w' := by
  induction h with
  | refl => exact .refl w
  | tail _ hop ih =>
    obtain ⟨store, fs, args, tr, r, hop⟩ := hop
    exact ih.trans (exec_remains hop)

/-- `log` refuses a reserved tag before it has stored anything. What it returns an id for, `resolve`
returns by id and lists under the alias, also after later calls of `log`. -/
theorem log_then_resolve {r : Except PyExc Str}
    (h : Exec (Serves F) (log store fs args) w tr r w') :
    ((∃ kv ∈ dictItems args.tags, isReserved kv.1 = true) →
      tr = [] ∧ w' = w ∧ ∃ e, r = .error e) ∧
    ∀ id, r = .ok id → ∀ w₂, Logs F w' w₂ → ∃ ref, Returned store args id ref ∧ ∀ u,
      (∀ tr r w₃, Exec (Serves Reliable) (resolve id .id u) w₂ tr r w₃ → r = .ok [ref]) ∧
      (∀ tr r w₃, Exec (Serves Reliable) (resolve args.identity.aliasName .alias_ u) w₂ tr r w₃ →
        ∃ refs, r = .ok refs ∧ ref ∈ refs) := by
  refine ⟨fun ⟨kv, hkv, hr⟩ => exec_log_invalid (validateContent_reserved hkv hr) h, ?_⟩
  rintro id rfl w₂ hlater
  obtain ⟨hv, hlogged⟩ := exec_log_ok h
  obtain ⟨expId, start, hexp, hrun⟩ := hlogged.record
  have hret := returned_of_record id expId start hv
  have hrun₂ := hlater.keeps hrun
  have hexp₂ := hlater.remains.experiments _ _ hexp
  have hid₂ : id ∈ w₂.mlflow.runIds := hlater.remains.listed id (by
    rw [hlogged.untouched.runIds]
    exact List.mem_append_right _ (List.mem_singleton_self _))
  refine ⟨_, hret, fun u => ⟨fun tr r w₃ hx => ?_, fun tr r w₃ hx => ?_⟩⟩
  · obtain ⟨rfl, -⟩ := exec_resolve_id hrun₂ hx
    cases u with
    | true => rfl
    | false => simp [kept, hret.usable]
  · obtain ⟨runs, hperm, rfl, -⟩ := exec_resolve_alias hexp₂ hx
    refine ⟨_, rfl, mem_kept.2 ⟨?_, .inr hret.usable⟩⟩
    rw [hperm.mem_iff]
    refine List.mem_map_of_mem (mem_matching.2 ⟨hid₂, hrun₂, ?_,
      recorded_lifecycleStage (args.uri store id) ..⟩)
    rw [List.mem_singleton]
    exact recorded_experimentId (args.uri store id) ..

/-- A run with a parameter, looked up right after it was logged. -/
theorem log_then_resolve_sample : ∃ tr w',
    Exec (Serves Lossless) (log sampleStore sampleFs sampleArgs) noRuns tr
    (.ok (sampleRunId '0')) w' ∧
    ∃ ref, Returned sampleStore sampleArgs (sampleRunId '0') ref ∧
      ref.params "batch".toList = some "12".toList := by
  have hx := exec_simulate (log sampleStore sampleFs sampleArgs) noRuns
    (lossless_serve (fun _ => .ok) fun _ _ => by simp)
  have hr : (simulate (fun _ => .ok) (log sampleStore sampleFs sampleArgs) noRuns).2.1 =
      .ok (sampleRunId '0') := by
    have h : (simulate (fun _ => .ok) (log sampleStore sampleFs sampleArgs) noRuns).2.1.toOption =
        some (sampleRunId '0') := by decide +kernel
    cases hout : (simulate (fun _ => .ok) (log sampleStore sampleFs sampleArgs) noRuns).2.1 with
    | ok id =>
      rw [hout] at h
      exact congrArg Except.ok (Option.some.inj h)
    | error e =>
      rw [hout] at h
      cases h
  obtain ⟨ref, hret, -⟩ := (log_then_resolve hx).2 _ hr _ .refl
  rw [hr] at hx
  exact ⟨_, _, hx, ref, hret, by rw [hret.params]; rfl⟩

end Accel.Model
