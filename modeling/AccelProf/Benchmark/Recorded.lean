import AccelProf.Benchmark.Metrics
import AccelProf.Platform.Delivery

/-! A logged benchmark iteration is found with everything that was measured: what has no metric is a
tag, and a bad number never keeps the run from being logged. -/

namespace Accel.Model
open Data Program Prog

variable {fmt : PyFloat → Str} {m : Dict Str PyFloat} {tags : Dict Str PyVal}
  {reg : Dict Str MetricAdapter} {it : Iteration} {args : LogArgs} {store : Store} {k : Str}

section Surfaced

/-- What an extra is as a tag, unless it is a metric already. -/
def surfaced (fmt : PyFloat → Str) (m : Dict Str PyFloat) (field : Str) (v : Json) :
    Option PyVal :=
  if (m.get (extraName field)).isSome then none else (tagValue fmt v).map .str

theorem surface_eq (e : Str × Json) : surface fmt m tags e =
    (surfaced fmt m e.1 e.2).elim tags (tags.setDefault (extraName e.1)) := by
  unfold surface surfaced
  split_ifs with h
  · rfl
  · cases tagValue fmt e.2 with
    | none => rfl
    | some text => rfl

theorem get_surface_of_ne {e : Str × Json} (h : k ≠ extraName e.1) :
    (surface fmt m tags e).get k = tags.get k := by
  rw [surface_eq]
  cases surfaced fmt m e.1 e.2 with
  | none => rfl
  | some v => exact tags.get_setDefault_of_ne v h

theorem get_surface_self (e : Str × Json) : (surface fmt m tags e).get (extraName e.1) =
    (tags.get (extraName e.1)).or (surfaced fmt m e.1 e.2) := by
  rw [surface_eq]
  cases surfaced fmt m e.1 e.2 with
  | none => exact (Option.or_none).symm
  | some v => exact tags.get_setDefault_self _ v

theorem get_surfaces_other {extras : List (Str × Json)} (h : ∀ e ∈ extras, k ≠ extraName e.1) :
    (extras.foldl (surface fmt m) tags).get k = tags.get k := by
  induction extras generalizing tags with
  | nil => rfl
  | cons e es ih =>
    obtain ⟨he, hes⟩ := List.forall_mem_cons.1 h
    rw [List.foldl_cons, ih hes, get_surface_of_ne he]

theorem get_surfaces (extra : Dict Str Json) (field : Str) :
    (extra.items.foldl (surface fmt m) tags).get (extraName field) =
      (tags.get (extraName field)).or ((extra.get field).bind (surfaced fmt m field)) := by
  obtain ⟨extras, hnd⟩ := extra
  show (extras.foldl (surface fmt m) tags).get (extraName field) =
    (tags.get (extraName field)).or ((extras.lookup field).bind (surfaced fmt m field))
  induction extras generalizing tags with
  | nil => exact (Option.or_none).symm
  | cons e es ih =>
    obtain ⟨he, hes⟩ := List.nodup_cons.1 hnd
    rw [List.foldl_cons, List.lookup_cons]
    by_cases hf : field = e.1
    · have hrest : ∀ e' ∈ es, extraName field ≠ extraName e'.1 := by
        intro e' he' h
        apply he
        rw [← hf, extraName_injective h]
        exact List.mem_map_of_mem he'
      rw [get_surfaces_other hrest, hf, beq_self_eq_true, get_surface_self]
      rfl
    · have hne : extraName field ≠ extraName e.1 := fun h => hf (extraName_injective h)
      rw [beq_false_of_ne hf, ih hes, get_surface_of_ne hne]

end Surfaced

section Args

theorem dictGet_toPyDict {ν : Type} (val : ν → PyVal) (d : Dict Str ν) (k : Str) :
    dictGet (some (toPyDict val d)) k = (d.get k).map val := by
  obtain ⟨items, hnd⟩ := d
  show (items.map fun e => (e.1, val e.2)).lookup k = (items.lookup k).map val
  clear hnd
  induction items with
  | nil => rfl
  | cons e es ih =>
    rw [List.map_cons, List.lookup_cons, List.lookup_cons, ih]
    cases k == e.1 with
    | true => rfl
    | false => rfl

theorem get_ownTags (it : Iteration) (k : Str) : it.ownTags.get k =
    (dictGet it.tags k).or (((Dict.empty.set runNoTag (.str it.runNo.toStr)).set frameworkTag
      (.str it.framework)).get k) :=
  Dict.get_update _ ⟨dictItems it.tags, dictItems_nodup it.tags⟩ k

theorem get_withAccuracy (accuracy : Option PyFloat) (m : Dict Str PyFloat) :
    (accuracy.elim m (m.set accuracyMetric)).get accuracyMetric =
      accuracy.or (m.get accuracyMetric) := by
  cases accuracy with
  | none => rfl
  | some x => exact m.get_set_self _ x

theorem get_withAccuracy_of_ne (accuracy : Option PyFloat) (m : Dict Str PyFloat)
    (h : k ≠ accuracyMetric) : (accuracy.elim m (m.set accuracyMetric)).get k = m.get k := by
  cases accuracy with
  | none => rfl
  | some x => exact m.get_set_of_ne x h

/-- What the store is given for an iteration, of an adapter's metrics. -/
def argsOf (fmt : PyFloat → Str) (it : Iteration) (metrics : BenchmarkMetrics)
    (m : Dict Str PyFloat) : LogArgs where
  identity := it.identity
  metrics := some (toPyDict (fun x => .float x (fmt x))
    (it.accuracy.elim m (m.set accuracyMetric)))
  params := it.params
  tags := some (toPyDict id (metrics.extra.items.foldl
    (surface fmt (it.accuracy.elim m (m.set accuracyMetric))) it.ownTags))
  artifacts := it.artifacts

theorem iterationArgs_eq {adapter : MetricAdapter} (hreg : reg.get it.adapterName = some adapter) :
    iterationArgs fmt reg it = (adapter.normalize it.result).asMetrics.map fun m =>
      argsOf fmt it (adapter.normalize it.result) m := by
  unfold iterationArgs getAdapter
  rw [hreg]
  cases h : (adapter.normalize it.result).asMetrics with
  | error e =>
    show ((adapter.normalize it.result).asMetrics >>= _) = _
    rw [h]
    rfl
  | ok m =>
    show ((adapter.normalize it.result).asMetrics >>= _) = _
    rw [h]
    rfl

variable {metrics : BenchmarkMetrics}

theorem dictGet_metrics (k : Str) : (dictGet (argsOf fmt it metrics m).metrics k).bind
    PyVal.toFloat = (it.accuracy.elim m (m.set accuracyMetric)).get k := by
  show (dictGet (some (toPyDict _ _)) k).bind PyVal.toFloat = _
  rw [dictGet_toPyDict]
  cases (it.accuracy.elim m (m.set accuracyMetric)).get k with
  | none => rfl
  | some x => rfl

theorem dictGet_tags_extra (field : Str) :
    dictGet (argsOf fmt it metrics m).tags (extraName field) =
    (it.ownTags.get (extraName field)).or ((metrics.extra.get field).bind
      (surfaced fmt (it.accuracy.elim m (m.set accuracyMetric)) field)) := by
  show dictGet (some (toPyDict _ _)) (extraName field) = _
  rw [dictGet_toPyDict, Option.map_id, id_eq, get_surfaces]

theorem dictGet_tags_other (h : ∀ field, k ≠ extraName field) :
    dictGet (argsOf fmt it metrics m).tags k = it.ownTags.get k := by
  show dictGet (some (toPyDict _ _)) k = _
  rw [dictGet_toPyDict, Option.map_id, id_eq, get_surfaces_other fun e _ => h e.1]

end Args

section Record

variable {keys : ResultKeys} {used : List Str} {framework id : Str} {ref : RunRef}

/-- What is found of an iteration whose tool reports under `keys`: a metric for every finite number
and for nothing else, the caller's tags as they were given, and for every other scalar that has no
slot a tag with its text. -/
structure RecordsIteration (fmt : PyFloat → Str) (keys : ResultKeys) (it : Iteration)
    (ref : RunRef) : Prop where
  aliasName : ref.aliasName = some it.identity.aliasName
  chip : ref.chip = some it.identity.chip
  workloadId : ref.workloadId = some it.identity.workloadId
  measures : ∀ field, ref.metrics (keys.metric field) = (it.result.get field).bind measured
  accuracy : ref.metrics accuracyMetric = it.accuracy
  metricsOnly : ∀ k x, ref.metrics k = some x → k = accuracyMetric ∨ ∃ field, keys.metric field = k
  params : ∀ k, ref.params k = (dictGet it.params k).map PyVal.toStr
  ownTags : ∀ k v, dictGet it.tags k = some v → ref.tags k = some v.toStr
  runNo : dictGet it.tags runNoTag = none → ref.tags runNoTag = some it.runNo.toStr
  framework : dictGet it.tags frameworkTag = none → ref.tags frameworkTag = some it.framework
  texts : ∀ field, (∀ slot, keys.field slot ≠ field) → dictGet it.tags (extraName field) = none →
    ref.tags (extraName field) = (it.result.get field).bind fun v =>
      if (measured v).isSome then none else tagValue fmt v

theorem reserved_ne_extraName : ∀ t ∈ runNameTag :: namespaceTag :: runNoTag :: frameworkTag ::
    reservedTags, ∀ field, t ≠ extraName field := by
  intro t ht field
  apply not_extraName
  have htake : ∀ t ∈ runNameTag :: namespaceTag :: runNoTag :: frameworkTag :: reservedTags,
      t.take 6 ≠ "extra_".toList := by decide
  exact htake t ht

theorem isReserved_extraName (field : Str) : isReserved (extraName field) = false := by
  by_contra h
  have hmem : extraName field ∈ reservedTags := isReserved_iff.1 (Bool.of_not_eq_false h)
  apply reserved_ne_extraName (extraName field) _ field rfl
  exact List.mem_cons_of_mem _ (List.mem_cons_of_mem _ (List.mem_cons_of_mem _
    (List.mem_cons_of_mem _ hmem)))

/-- A tag that is neither reserved nor the namespace is what `log` was given. -/
theorem Returned.tag (h : Returned store args id ref) (hr : isReserved k = false)
    (hname : k ≠ runNameTag) (hns : k ≠ namespaceTag) :
    ref.tags k = (dictGet args.tags k).map PyVal.toStr := by
  rw [h.tags k hr hname, Store.effectiveTag]
  cases dictGet args.tags k with
  | none => exact if_neg hns
  | some v => rfl

theorem Wired.metric_ne_accuracy (hw : Wired keys used) (field : Str) :
    keys.metric field ≠ accuracyMetric := by
  rcases hw.field_cases field with ⟨slot, rfl⟩ | hf
  · rw [hw.metric_field]
    exact slot.metric_ne_accuracy
  · rw [hw.metric_extra hf]
    exact (accuracyMetric_ne_extraName field).symm

theorem Returned.iteration (hw : Wired keys used)
    (hm : ((keyedAdapter framework keys used).normalize it.result).asMetrics = .ok m)
    (h : Returned store (argsOf fmt it ((keyedAdapter framework keys used).normalize it.result) m)
      id ref) : RecordsIteration fmt keys it ref := by
  have hmetrics : ∀ k, ref.metrics k = (it.accuracy.elim m (m.set accuracyMetric)).get k :=
    fun k => (h.metrics k).trans (dictGet_metrics k)
  have hmeasures : ∀ field, ref.metrics (keys.metric field) =
      (it.result.get field).bind measured := fun field => by
    rw [hmetrics, get_withAccuracy_of_ne _ _ (hw.metric_ne_accuracy field), hw.get_metrics hm]
  have hown : ∀ k, (∀ field, k ≠ extraName field) → isReserved k = false → k ≠ runNameTag →
      k ≠ namespaceTag → ref.tags k = (it.ownTags.get k).map PyVal.toStr := fun k he hr hn hns => by
    rw [h.tag hr hn hns, dictGet_tags_other he]
  refine ⟨h.aliasName, h.chip, h.workloadId, hmeasures, ?_, fun k x hk => ?_, h.params,
    fun k v hkv => ?_, fun hnone => ?_, fun hnone => ?_, fun field hslot hnone => ?_⟩
  · rw [hmetrics, get_withAccuracy, get_accuracy hm]
    cases it.accuracy with
    | none => rfl
    | some x => rfl
  · by_cases hacc : k = accuracyMetric
    · exact .inl hacc
    · rw [hmetrics, get_withAccuracy_of_ne _ _ hacc] at hk
      exact .inr (hw.metric_of_name hm hk)
  · apply h.ownTags k v
    have hget : it.ownTags.get k = some v := by rw [get_ownTags, hkv, Option.some_or]
    -- a caller's tag may stand under the name of a field, and wins over it
    by_cases he : ∃ field, k = extraName field
    · obtain ⟨field, rfl⟩ := he
      rw [dictGet_tags_extra, hget, Option.some_or]
    · rw [dictGet_tags_other fun field hf => he ⟨field, hf⟩, hget]
  · rw [hown _ (reserved_ne_extraName _ (by decide)) (by decide) (by decide) (by decide),
      get_ownTags, hnone]
    rfl
  · rw [hown _ (reserved_ne_extraName _ (by decide)) (by decide) (by decide) (by decide),
      get_ownTags, hnone]
    rfl
  · have hused : field ∉ used := by
      intro hu
      obtain ⟨slot, -, hs⟩ := List.mem_map.1 ((hw.used field).1 hu)
      exact hslot slot hs
    have hfree : it.ownTags.get (extraName field) = none := by
      rw [get_ownTags, hnone, Option.none_or,
        Dict.get_set_of_ne _ _ (reserved_ne_extraName _ (by decide) field).symm,
        Dict.get_set_of_ne _ _ (reserved_ne_extraName _ (by decide) field).symm, Dict.get_empty]
    rw [h.tag (isReserved_extraName field) (reserved_ne_extraName _ (by decide) field).symm
        (reserved_ne_extraName _ (by decide) field).symm, dictGet_tags_extra, hfree,
      Option.none_or, keyedAdapter_extra, if_pos hused]
    cases hv : it.result.get field with
    | none => rfl
    | some v =>
      -- such a field is surfaced as a tag unless it is a metric already
      have hget : (it.accuracy.elim m (m.set accuracyMetric)).get (extraName field) =
          measured v := by
        rw [← hmetrics, ← hw.metric_extra hused, hmeasures, hv]
        rfl
      show (surfaced fmt _ field v).map PyVal.toStr = if (measured v).isSome then none
        else tagValue fmt v
      unfold surfaced
      rw [hget]
      split_ifs with hmv
      · rfl
      · rw [Option.map_map]
        exact Option.map_id'

end Record

section Refusal

variable {keys : ResultKeys} {used : List Str} {framework : Str} {metrics : BenchmarkMetrics}
  {F : Call → Fate → Prop} {w w' : World} {tr : List (Step Call Ans Fate World)} {fs : LocalFs}

/-- Why an iteration is refused once its numbers are read. -/
def Unloggable (it : Iteration) : Prop :=
  (∃ e, validateIdentity it.identity = .error e) ∨
    (∃ x, it.accuracy = some x ∧ x.isFinite = false) ∨
      ∃ k, isReserved k = true ∧ (dictGet it.tags k).isSome = true

theorem validateContent_iff {metrics tags : Option PyDict} : validateContent metrics tags = .ok () ↔
    (∀ k v, dictGet metrics k = some v → ∃ x, v.toFloat = some x ∧ x.isFinite = true) ∧
      ∀ k v, dictGet tags k = some v → isReserved k = false := by
  constructor
  · intro h
    exact ⟨fun k v hv => validateContent_finite h hv,
      fun k v hv => (validateContent_ok h).2 _ (mem_of_dictGet hv)⟩
  · rintro ⟨hmetrics, htags⟩
    have hm : (dictItems metrics).forM checkMetric = .ok () := by
      apply forM_ok.2
      intro item hitem
      obtain ⟨x, hx, hfin⟩ := hmetrics item.1 item.2 (dictGet_of_mem hitem)
      unfold checkMetric
      rw [hx]
      exact if_pos hfin
    have ht : (dictItems tags).forM checkTag = .ok () := by
      apply forM_ok.2
      intro item hitem
      unfold checkTag
      rw [htags item.1 item.2 (dictGet_of_mem hitem)]
      rfl
    show ((dictItems metrics).forM checkMetric >>= fun _ => (dictItems tags).forM checkTag) = _
    rw [hm, ht]
    rfl

theorem withNamespace_reserved {tags : Option PyDict} (hr : isReserved k = true) :
    dictGet (store.withNamespace tags) k = none ↔ dictGet tags k = none := by
  have hns : k ≠ namespaceTag := by
    rintro rfl
    exact absurd hr (by decide)
  have h := withNamespace_get store tags k
  rw [Store.effectiveTag] at h
  constructor
  · intro hnone
    rw [hnone] at h
    cases hv : dictGet tags k with
    | none => rfl
    | some v =>
      rw [hv] at h
      cases h
  · intro hnone
    rw [hnone] at h
    simp only [if_neg hns] at h
    exact Option.map_eq_none_iff.1 h

theorem dictGet_tags_reserved (hr : isReserved k = true) :
    dictGet (argsOf fmt it metrics m).tags k = dictGet it.tags k := by
  have hextra : ∀ field, k ≠ extraName field := by
    rintro field rfl
    rw [isReserved_extraName] at hr
    cases hr
  have hrun : k ≠ runNoTag := by
    rintro rfl
    exact absurd hr (by decide)
  have hframework : k ≠ frameworkTag := by
    rintro rfl
    exact absurd hr (by decide)
  rw [dictGet_tags_other hextra, get_ownTags, Dict.get_set_of_ne _ _ hframework,
    Dict.get_set_of_ne _ _ hrun, Dict.get_empty, Option.or_none]

/-- Of all that an iteration brings, only the accuracy and the caller's tags can be refused. -/
theorem iteration_content_iff (fmt : PyFloat → Str) (it : Iteration) (store : Store)
    (hm : metrics.asMetrics = .ok m) :
    validateContent (argsOf fmt it metrics m).metrics
        (store.withNamespace (argsOf fmt it metrics m).tags) = .ok () ↔
      (∀ x, it.accuracy = some x → x.isFinite = true) ∧
        ∀ k, isReserved k = true → dictGet it.tags k = none := by
  rw [validateContent_iff]
  apply and_congr
  · have hget : ∀ k v, dictGet (argsOf fmt it metrics m).metrics k = some v →
        ∃ x, v.toFloat = some x ∧ (it.accuracy.elim m (m.set accuracyMetric)).get k = some x := by
      intro k v hv
      have h := (dictGet_toPyDict (fun x => PyVal.float x (fmt x)) _ k).symm.trans hv
      obtain ⟨x, hx, rfl⟩ := Option.map_eq_some_iff.1 h
      exact ⟨x, rfl, hx⟩
    constructor
    · intro h x hx
      have hv : dictGet (argsOf fmt it metrics m).metrics accuracyMetric =
          some (.float x (fmt x)) := by
        show dictGet (some (toPyDict _ _)) accuracyMetric = _
        rw [dictGet_toPyDict, get_withAccuracy, hx]
        rfl
      obtain ⟨y, hy, hfin⟩ := h _ _ hv
      obtain rfl : x = y := Option.some.inj hy
      exact hfin
    · intro h k v hv
      obtain ⟨x, hx, hk⟩ := hget k v hv
      refine ⟨x, hx, ?_⟩
      -- every other metric is a finite number of the result
      by_cases hacc : k = accuracyMetric
      · rw [hacc, get_withAccuracy] at hk
        cases ha : it.accuracy with
        | none =>
          rw [ha, Option.none_or] at hk
          exact asMetrics_finite hm hk
        | some y =>
          rw [ha] at hk
          obtain rfl : y = x := Option.some.inj hk
          exact h y ha
      · rw [get_withAccuracy_of_ne _ _ hacc] at hk
        exact asMetrics_finite hm hk
  -- no tag that an iteration adds itself is reserved
  · have hnone : ∀ k, isReserved k = true →
        (dictGet (store.withNamespace (argsOf fmt it metrics m).tags) k = none ↔
          dictGet it.tags k = none) := fun k hr => by
      rw [withNamespace_reserved hr, dictGet_tags_reserved hr]
    constructor
    · intro h k hr
      apply (hnone k hr).1
      apply Option.eq_none_iff_forall_ne_some.2
      intro v hv
      rw [h k v hv] at hr
      cases hr
    · intro h k v hv
      cases hr : isReserved k with
      | false => rfl
      | true =>
        rw [(hnone k hr).2 (h k hr)] at hv
        cases hv

theorem exec_createRun_calls {i : Identity} {r : Except PyExc Str}
    (h : Exec (Serves F) (createRun i) w tr r w') : tr ≠ [] := by
  have hask : ∀ {tr r w'}, Exec (Serves F) (experimentId i.aliasName true) w tr r w' → tr ≠ [] := by
    intro tr r w' h
    rcases exec_bind.1 h with ⟨e, h, -⟩ | ⟨found, tr₁, tr₂, w₁, h₁, -, rfl⟩
    · obtain ⟨l, -, rfl⟩ := exec_request.1 h
      exact List.cons_ne_nil _ _
    · obtain ⟨l, -, rfl⟩ := exec_request.1 h₁
      exact List.cons_ne_nil _ _
  rcases exec_bind.1 h with ⟨e, h, -⟩ | ⟨found, tr₁, tr₂, w₁, h₁, -, rfl⟩
  · exact hask h
  · exact fun hnil => hask h₁ (List.append_eq_nil_iff.1 hnil).1

/-- `log` stops before its first call exactly when its arguments do not pass. -/
theorem exec_log_silent {r : Except PyExc Str} (h : Exec (Serves F) (log store fs args) w tr r w') :
    tr = [] ↔ (∃ e, validateIdentity args.identity = .error e) ∨
      ∃ e, validateContent args.metrics (store.withNamespace args.tags) = .error e := by
  constructor
  · rintro rfl
    rcases exec_log h with ⟨-, -, e, -, he⟩ | ⟨e, -, hc⟩ | ⟨id, tr₁, w₁, tr₂, hc, -, ht⟩
    · exact he.imp (fun h => ⟨e, h⟩) fun h => ⟨e, h⟩
    · exact absurd rfl (exec_createRun_calls hc)
    · rcases ht with ⟨-, htr, -⟩ | ⟨e, w₂, tr₃, -, htr, -⟩
      · exact absurd (List.append_eq_nil_iff.1 htr.symm).1 (exec_createRun_calls hc)
      · exact absurd (List.append_eq_nil_iff.1 htr.symm).1 (exec_createRun_calls hc)
  · intro hbad
    simp only [log, bind_eq] at h
    cases hi : validateIdentity args.identity with
    | error e =>
      rw [hi] at h
      exact h.1
    | ok u =>
      obtain ⟨e, he⟩ := hbad.resolve_left (by rw [hi]; rintro ⟨e, he⟩; cases he)
      rw [hi, ofExcept_ok, ret_bind, he] at h
      exact h.1

theorem error_iff_ne_ok {x : Except PyExc Unit} : (∃ e, x = .error e) ↔ x ≠ .ok () := by
  cases x with
  | error e => exact iff_of_true ⟨e, rfl⟩ nofun
  | ok u => exact iff_of_false nofun fun h => h rfl

/-- An integer that no double is near makes an iteration raise; of any other result only the
identity, the accuracy or a reserved tag can keep it from being logged, and then nothing is called.
No number that the tool measured can. -/
theorem iteration_refused_iff (fmt : PyFloat → Str) (store : Store) (fs : LocalFs)
    (hw : Wired keys used)
    (hreg : reg.get it.adapterName = some (keyedAdapter framework keys used)) :
    (∃ field v, it.result.get field = some v ∧ Huge v) ∧
        logBenchmarkIteration fmt reg store fs it = .error .overflow ∨
      (∀ field v, it.result.get field = some v → ¬ Huge v) ∧
        ∃ program, logBenchmarkIteration fmt reg store fs it = .ok program ∧
          ∀ F w tr r w', Exec (Serves F) program w tr r w' → (tr = [] ↔ Unloggable it) := by
  have hrun : logBenchmarkIteration fmt reg store fs it =
      (((keyedAdapter framework keys used).normalize it.result).asMetrics.map fun m =>
        argsOf fmt it ((keyedAdapter framework keys used).normalize it.result) m).map
          (log store fs) := by
    rw [logBenchmarkIteration, iterationArgs_eq hreg]
  rcases overflows_asMetrics ((keyedAdapter framework keys used).normalize it.result) with
    ⟨⟨m, hm⟩, hfits⟩ | ⟨herr, hhuge⟩
  · rw [hm] at hrun
    refine .inr ⟨fun field v hv hhuge => ?_, _, hrun, fun F w tr r w' h => ?_⟩
    · obtain ⟨e, he, hbig⟩ := hw.huge_iff.2 ⟨field, v, hv, hhuge⟩
      exact hfits e he hbig
    · rw [exec_log_silent h]
      apply or_congr_right
      have hcontent := iteration_content_iff fmt it store hm
      rw [error_iff_ne_ok, Ne, hcontent, not_and_or]
      apply or_congr
      · constructor
        · intro hn
          push Not at hn
          obtain ⟨x, hx, hfin⟩ := hn
          exact ⟨x, hx, Bool.of_not_eq_true hfin⟩
        · rintro ⟨x, hx, hfin⟩ hall
          rw [hall x hx] at hfin
          cases hfin
      · constructor
        · intro hn
          push Not at hn
          obtain ⟨k, hr, hsome⟩ := hn
          exact ⟨k, hr, Option.isSome_iff_ne_none.2 hsome⟩
        · rintro ⟨k, hr, hsome⟩ hall
          rw [hall k hr] at hsome
          cases hsome
  · rw [herr] at hrun
    exact .inl ⟨hw.huge_iff.1 hhuge, hrun⟩

end Refusal

section Lasting

variable {keys : ResultKeys} {used : List Str} {framework id : Str} {w₀ w₁ w₂ : World}
  {s₁ s₂ : State Operator} {tr₁ tr₂ : List (Step Call Ans Fate World)} {fs : LocalFs}
  {r : Except PyExc (List RunRef)}

def sampleFormat (_ : PyFloat) : Str := "inf".toList

def sampleIteration : Iteration where
  identity := sampleArgs.identity
  framework := "sglang".toList
  result := sampleResult
  runNo := .int 7
  tool := none
  tags := none
  params := none
  accuracy := some (.finite (4 / 5))
  artifacts := none

def sampleIterationLog : Action Str :=
  match logBenchmarkIteration sampleFormat bundledAdapters sampleStore sampleFs sampleIteration with
  | .ok program => program
  | .error _ => raise .noSelector

theorem sampleIteration_logs : logBenchmarkIteration sampleFormat bundledAdapters sampleStore
    sampleFs sampleIteration = .ok sampleIterationLog := by
  have hok : (logBenchmarkIteration sampleFormat bundledAdapters sampleStore sampleFs
      sampleIteration).isOk = true := by decide +kernel
  unfold sampleIterationLog
  cases h : logBenchmarkIteration sampleFormat bundledAdapters sampleStore sampleFs
      sampleIteration with
  | ok program => rfl
  | error e =>
    rw [h] at hok
    cases hok

theorem exec_sampleIterationLog : ∃ tr w₁, Exec (Serves Lossless) sampleIterationLog noRuns tr
    (.ok (sampleRunId '0')) w₁ := by
  have hout : (simulate (fun _ => .ok) sampleIterationLog noRuns).2.1.toOption =
      some (sampleRunId '0') := by decide +kernel
  have hexec := exec_simulate sampleIterationLog noRuns
    (lossless_serve (fun _ => .ok) fun _ _ => by simp)
  cases hr : (simulate (fun _ => .ok) sampleIterationLog noRuns).2.1 with
  | error e =>
    rw [hr] at hout
    cases hout
  | ok id =>
    rw [hr] at hout hexec
    obtain rfl := Option.some.inj hout
    exact ⟨_, _, hexec⟩

theorem sampleIteration_adapter : bundledAdapters.get sampleIteration.adapterName =
    some (keyedAdapter "sglang".toList sglangKeys sglangUsed) := rfl

theorem sampleIteration_loggable : ¬ Unloggable sampleIteration := by
  rintro (⟨e, he⟩ | ⟨x, hx, hfin⟩ | ⟨k, -, hsome⟩)
  · have hok : validateIdentity sampleIteration.identity = .ok () := by rfl
    rw [hok] at he
    cases he
  · obtain rfl := Option.some.inj hx
    cases hfin
  · cases hsome

/-- An infinite request rate and a list do not keep a run from being logged. -/
theorem iteration_refused_iff_sample : ∃ program,
    logBenchmarkIteration sampleFormat bundledAdapters sampleStore sampleFs sampleIteration =
      .ok program ∧
    ∀ F w tr r w', Exec (Serves F) program w tr r w' → tr ≠ [] := by
  rcases iteration_refused_iff sampleFormat sampleStore sampleFs wired_sglang
    sampleIteration_adapter with ⟨⟨field, v, hv, hhuge⟩, -⟩ | ⟨-, program, hp, hcalls⟩
  · exact absurd hhuge (sampleResult_fits hv)
  · refine ⟨program, hp, fun F w tr r w' h hnil => ?_⟩
    exact sampleIteration_loggable ((hcalls F w tr r w' h).1 hnil)

end Lasting

end Accel.Model
