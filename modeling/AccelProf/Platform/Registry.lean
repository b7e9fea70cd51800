import AccelProf.Data.Registry
import AccelProf.Platform.Retirement

/-! The platform as a registry. Seen through the lookup of usable runs and the objects below the
place that their records name, every operation is one change of the registry or none. -/

namespace Accel.Model
open Data Program Prog

variable {s s' : State Operator} {w w₁ w' : World} {tr : List (Step Call Ans Fate World)}
  {id : Str} {ref : RunRef} {F : Call → Fate → Prop}

section View

/-- What stands at the place that a record names, by its name below that place. -/
def World.filesOf (w : World) (ref : RunRef) (name : Str) : Option Bytes :=
  match ref.artifactsUri with
  | none => none
  | some uri =>
    match parseS3Uri uri with
    | .error _ => none
    | .ok p => ((w.s3 p.bucket).get (p.key ++ name)).map Obj.body

/-- A usable run, with its files. -/
def World.found (w : World) (id : Str) : Option (Entry RunRef Str Bytes) :=
  ((w.mlflow.runs id).filter isUsableRun).map fun run =>
    ⟨toRef (id, run), w.filesOf (toRef (id, run))⟩

theorem World.found_eq_some {e : Entry RunRef Str Bytes} : w.found id = some e ↔
    ∃ run, w.mlflow.runs id = some run ∧ isUsableRun run = true ∧
      e = ⟨toRef (id, run), w.filesOf (toRef (id, run))⟩ := by
  unfold World.found
  rw [Option.map_eq_some_iff]
  constructor
  · rintro ⟨run, hrun, rfl⟩
    obtain ⟨hr, hu⟩ := Option.filter_eq_some_iff.1 hrun
    exact ⟨run, hr, hu, rfl⟩
  · rintro ⟨run, hr, hu, rfl⟩
    exact ⟨run, Option.filter_eq_some_iff.2 ⟨hr, hu⟩, rfl⟩

theorem isUsableRun_iff {run : Run} : isUsableRun run = true ↔
    run.status = some .finished ∧ run.lifecycleStage = .active := by
  simp [isUsableRun]

theorem World.found_eq_none (h : ¬ Usable id w) : w.found id = none := by
  by_contra hne
  obtain ⟨e, he⟩ := Option.ne_none_iff_exists'.1 hne
  obtain ⟨run, hr, hu, -⟩ := World.found_eq_some.1 he
  exact h ⟨run, hr, isUsableRun_iff.1 hu⟩

/-- The registry that consumers see: ids that were handed out, and usable runs. -/
def World.registry (w : World) : Registry Str RunRef Str Bytes where
  used := {id | w.mlflow.runs id ≠ none}
  entries := w.found
  entry_used := fun id e h => by
    obtain ⟨run, hr, -⟩ := World.found_eq_some.1 h
    show w.mlflow.runs id ≠ none
    rw [hr]
    exact Option.some_ne_none run

end View

section Frame

/-- Only run `id` and objects with its id in their keys differ. -/
structure OnlyRun (id : Str) (w w' : World) : Prop where
  runs : ∀ id', id' ≠ id → w'.mlflow.runs id' = w.mlflow.runs id'
  objects : ∀ b (e : Key × Obj), ¬ IsKeyOf id e.1 →
    (e ∈ (w'.s3 b).entries ↔ e ∈ (w.s3 b).entries)

theorem OnlyRun.refl (w : World) : OnlyRun id w w := ⟨fun _ _ => rfl, fun _ _ _ => Iff.rfl⟩

theorem OnlyRun.trans (h : OnlyRun id w w₁) (h' : OnlyRun id w₁ w') : OnlyRun id w w' where
  runs := fun id' hid => (h'.runs id' hid).trans (h.runs id' hid)
  objects := fun b e he => (h'.objects b e he).trans (h.objects b e he)

theorem get_congr {m m' : Bucket} {k : Key}
    (h : ∀ v, (k, v) ∈ m'.entries ↔ (k, v) ∈ m.entries) : m'.get k = m.get k := by
  apply Option.ext
  intro v
  rw [SortedMap.get_eq_some, SortedMap.get_eq_some]
  exact h v

theorem isKeyOf_append {t name : Str} (ht : safeIdBody t = true) :
    IsKeyOf id (runPrefix t id ++ name) :=
  ⟨t, slash_not_mem_of_plain (plain_of_safeIdBody ht).2, List.prefix_append _ _⟩

/-- Every run in MLflow was created by somebody. -/
structure Accounted (s : State Operator) : Prop extends Consistent operators s where
  creator : ∀ id run, s.1.mlflow.runs id = some run → ∃ i, Creates s.2 i id

theorem Accounted.refersTo {run : Run} (hs : Accounted s) (hr : s.1.mlflow.runs id = some run) :
    RefersTo s (toRef (id, run)) :=
  ⟨hs.creator id run hr, run, hr, rfl⟩

theorem Accounted.hex {run : Run} (hs : Accounted s) (hr : s.1.mlflow.runs id = some run) :
    isRunId id = true := by
  obtain ⟨i, hc⟩ := hs.creator id run hr
  exact (hs.created i id hc).1

theorem filesOf_none (h : ref.artifactsUri = none) : w.filesOf ref = fun _ => none := by
  funext name
  rw [World.filesOf, h]

theorem filesOf_parsed {uri : Str} {p : ParsedS3Uri} (h : ref.artifactsUri = some uri)
    (hp : parseS3Uri uri = .ok p) :
    w.filesOf ref = fun name => ((w.s3 p.bucket).get (p.key ++ name)).map Obj.body := by
  funext name
  simp only [World.filesOf, h, hp]

/-- What is confined to one run shows in no other. -/
theorem Accounted.found_other (hs : Accounted s) (hid : isRunId id = true)
    (h : OnlyRun id s.1 w') {id' : Str} (hne : id' ≠ id) : w'.found id' = s.1.found id' := by
  unfold World.found
  rw [h.runs id' hne]
  cases hr : s.1.mlflow.runs id' with
  | none => rfl
  | some run =>
    have hfiles : w'.filesOf (toRef (id', run)) = s.1.filesOf (toRef (id', run)) := by
      obtain ⟨hid', hnone | ⟨uri, b, t, huri, -, ht, hp⟩⟩ := (hs.refersTo hr).place hs.toConsistent
      · rw [filesOf_none hnone, filesOf_none hnone]
      rw [filesOf_parsed huri hp, filesOf_parsed huri hp]
      funext name
      apply congrArg (Option.map Obj.body)
      apply get_congr
      intro v
      apply h.objects
      intro hk
      exact hne (isKeyOf_unique hid' hid (isKeyOf_append ht) hk)
    cases hu : isUsableRun run with
    | true => simp only [Option.filter, hu, if_true, Option.map_some, hfiles]
    | false => simp only [Option.filter, hu, Bool.false_eq_true, if_false, Option.map_none]

/-- No object stands where a new run would put its own. -/
theorem Accounted.free (hs : Accounted s) (hid : isRunId id = true)
    (hfresh : s.1.mlflow.runs id = none) {b : Str} {k : Key} (hk : IsKeyOf id k) :
    k ∉ s.1.s3 b := by
  intro hm
  obtain ⟨a, i, id', ha, hp, hc⟩ := hs.keys b k hm
  obtain ⟨hid', hr⟩ := hs.created i id' hc
  have hk' : IsKeyOf id' k := ⟨a, slash_not_mem_of_safeId ha, hp⟩
  obtain rfl := isKeyOf_unique hid hid' hk hk'
  exact hr hfresh

theorem registry_eq (hused : ∀ id, w'.mlflow.runs id = none ↔ w.mlflow.runs id = none)
    (hfound : ∀ id, w'.found id = w.found id) : w'.registry = w.registry := by
  apply Registry.ext
  · exact Set.ext fun id => not_congr (hused id)
  · exact funext hfound

/-- Changes of the platform that are confined to one run, as changes of the registry. -/
theorem Accounted.registry_same (hs : Accounted s) (hid : isRunId id = true)
    (h : OnlyRun id s.1 w') (hused : w'.mlflow.runs id = none ↔ s.1.mlflow.runs id = none)
    (hfound : w'.found id = s.1.found id) : w'.registry = s.1.registry := by
  apply registry_eq
  · intro id'
    by_cases hne : id' = id
    · rw [hne]
      exact hused
    · rw [h.runs id' hne]
  · intro id'
    by_cases hne : id' = id
    · rw [hne]
      exact hfound
    · exact hs.found_other hid h hne

theorem Accounted.registry_withdraw (hs : Accounted s) (hid : isRunId id = true)
    (h : OnlyRun id s.1 w') (hused : w'.mlflow.runs id = none ↔ s.1.mlflow.runs id = none)
    (hnot : ¬ Usable id w') : w'.registry = s.1.registry.withdraw id := by
  apply Registry.ext
  · apply Set.ext
    intro id'
    apply not_congr
    by_cases hne : id' = id
    · rw [hne]
      exact hused
    · rw [h.runs id' hne]
  · funext id'
    by_cases hne : id' = id
    · show w'.found id' = Function.update s.1.found id none id'
      rw [hne, World.found_eq_none hnot, Function.update_self]
    · show w'.found id' = Function.update s.1.found id none id'
      rw [Function.update_of_ne hne, hs.found_other hid h hne]

theorem Accounted.registry_pin (hs : Accounted s) (hid : isRunId id = true)
    (h : OnlyRun id s.1 w') (hused : w'.mlflow.runs id = none ↔ s.1.mlflow.runs id = none)
    (hfound : w'.found id = (s.1.found id).map (Registry.mark retentionMarker [])) :
    w'.registry = s.1.registry.pin retentionMarker [] id := by
  apply Registry.ext
  · apply Set.ext
    intro id'
    apply not_congr
    by_cases hne : id' = id
    · rw [hne]
      exact hused
    · rw [h.runs id' hne]
  · funext id'
    by_cases hne : id' = id
    · show w'.found id' = Function.update s.1.found id
        ((s.1.found id).map (Registry.mark retentionMarker [])) id'
      rw [hne, hfound, Function.update_self]
    · show w'.found id' = Function.update s.1.found id
        ((s.1.found id).map (Registry.mark retentionMarker [])) id'
      rw [Function.update_of_ne hne, hs.found_other hid h hne]

/-- A new run, and what is found of it. -/
theorem Accounted.registry_new (hs : Accounted s) (hid : isRunId id = true)
    (h : OnlyRun id s.1 w') (hnew : w'.mlflow.runs id ≠ none) :
    w'.registry.used = insert id s.1.registry.used ∧
      w'.registry.entries = Function.update s.1.registry.entries id (w'.found id) := by
  constructor
  · apply Set.ext
    intro id'
    rw [Set.mem_insert_iff]
    by_cases hne : id' = id
    · rw [hne]
      exact iff_of_true hnew (.inl rfl)
    · show w'.mlflow.runs id' ≠ none ↔ id' = id ∨ s.1.mlflow.runs id' ≠ none
      rw [h.runs id' hne]
      exact (or_iff_right hne).symm
  · funext id'
    by_cases hne : id' = id
    · rw [hne, Function.update_self]
      rfl
    · rw [Function.update_of_ne hne]
      exact hs.found_other hid h hne

end Frame

section Objects

theorem onlyRun_put {b : Str} {k : Key} {obj : Obj} (hk : IsKeyOf id k) :
    OnlyRun id w (w.setBucket b ((w.s3 b).put k obj)) := by
  refine ⟨fun _ _ => rfl, fun b' e he => ?_⟩
  have hne : e.1 ≠ k := by
    rintro rfl
    exact he hk
  by_cases hb : b' = b
  · subst hb
    rw [World.setBucket_s3_self, SortedMap.mem_put_entries]
    constructor
    · rintro (rfl | hm)
      · exact absurd rfl hne
      · exact hm.1
    · intro hm
      exact .inr ⟨hm, hne⟩
  · rw [World.setBucket_s3_ne hb]

theorem onlyRun_erases {b : Str} {S : Key → Prop} (h : Erases b S w w')
    (hS : ∀ k, S k → IsKeyOf id k) : OnlyRun id w w' := by
  refine ⟨fun id' _ => by rw [h.mlflow], fun b' e he => ?_⟩
  by_cases hb : b' = b
  · rw [hb, h.entries]
    exact and_iff_left fun hk => he (hS e.1 hk)
  · rw [h.others b' hb]

theorem onlyRun_touches {b : Str} {S : Key → Prop} (h : Touches b S w w')
    (hS : ∀ k, S k → IsKeyOf id k) : OnlyRun id w w' := by
  refine ⟨fun id' _ => by rw [h.mlflow], fun b' e he => ?_⟩
  by_cases hb : b' = b
  · rw [hb]
    exact h.keys e fun hk => he (hS e.1 hk)
  · rw [h.others b' hb]

theorem onlyRun_withRun (w : World) (id : Str) (run : Run) : OnlyRun id w (w.withRun id run) :=
  ⟨fun _ hne => World.withRun_runs_ne hne, fun _ _ _ => Iff.rfl⟩

theorem onlyRun_writesRun {f : Run → Run} {a : Except PyExc Unit} (h : WritesRun w id f a w') :
    OnlyRun id w w' := by
  unfold WritesRun at h
  cases hr : w.mlflow.runs id with
  | none =>
    rw [hr] at h
    obtain ⟨-, rfl⟩ := h
    exact .refl w'
  | some run =>
    rw [hr] at h
    obtain ⟨-, rfl⟩ := h
    exact onlyRun_withRun w id (f run)

theorem onlyRun_deleteRun {l : Fate} {a : Ans (.deleteRun id)}
    (h : Serves F w (.deleteRun id) l a w') : OnlyRun id w w' := by
  rcases h.effect with rfl | ⟨a', h⟩ | ⟨errs, h⟩
  · exact .refl w'
  · exact onlyRun_writesRun h
  · exact h.elim

theorem get_put_self (m : Bucket) (k : Key) (obj : Obj) : (m.put k obj).get k = some obj :=
  SortedMap.get_eq_some.2 (SortedMap.mem_put_entries.2 (.inl rfl))

theorem get_put_ne (m : Bucket) {k k' : Key} (obj : Obj) (h : k' ≠ k) :
    (m.put k obj).get k' = m.get k' := by
  apply get_congr
  intro v
  rw [SortedMap.mem_put_entries]
  constructor
  · rintro (he | hm)
    · exact absurd (congrArg Prod.fst he) h
    · exact hm.1
  · intro hm
    exact .inr ⟨hm, h⟩

end Objects

section Operations

theorem KeepsOrDeletes.used (h : KeepsOrDeletes w w') (id : Str) :
    w'.mlflow.runs id = none ↔ w.mlflow.runs id = none := by
  rcases h id with h | h
  · rw [h]
  · rw [h, Option.map_eq_none_iff]

/-- A usable run after runs were only kept or deleted is the run it was. -/
theorem KeepsOrDeletes.run_eq (h : KeepsOrDeletes w w') (hu : Usable id w') :
    w'.mlflow.runs id = w.mlflow.runs id := by
  obtain ⟨run', hr', -, hl⟩ := hu
  obtain ⟨run, hr, rfl | rfl⟩ := h.back hr'
  · rw [hr', hr]
  · cases hl

theorem found_congr (hrun : w'.mlflow.runs id = w.mlflow.runs id)
    (hfiles : ∀ run, w.mlflow.runs id = some run →
      w'.filesOf (toRef (id, run)) = w.filesOf (toRef (id, run))) : w'.found id = w.found id := by
  unfold World.found
  rw [hrun]
  cases hr : w.mlflow.runs id with
  | none => rfl
  | some run =>
    cases hu : isUsableRun run with
    | true => simp only [Option.filter, hu, if_true, Option.map_some, hfiles run hr]
    | false => simp only [Option.filter, hu, Bool.false_eq_true, if_false, Option.map_none]

/-- The place of a run, as far as its record names one. -/
theorem filesOf_eq (hplace : ref.artifactsUri = none ∨ ∃ uri b t, ref.artifactsUri = some uri ∧
      uri ≠ [] ∧ safeIdBody t = true ∧ parseS3Uri uri = .ok ⟨b, runPrefix t ref.runId⟩)
    (h : ∀ b k, IsKeyOf ref.runId k → (w'.s3 b).get k = (w.s3 b).get k) :
    w'.filesOf ref = w.filesOf ref := by
  rcases hplace with hnone | ⟨uri, b, t, huri, -, ht, hp⟩
  · rw [filesOf_none hnone, filesOf_none hnone]
  · rw [filesOf_parsed huri hp, filesOf_parsed huri hp]
    funext name
    exact congrArg (Option.map Obj.body) (h b _ (isKeyOf_append ht))

theorem hold_registry {r : Except PyExc Key} (hs : Accounted s) (href : RefersTo s ref)
    (h : Exec (Serves F) (hold ref) s.1 tr r w') : w'.registry = s.1.registry ∨
      w'.registry = s.1.registry.pin retentionMarker [] ref.runId := by
  obtain ⟨hid, hnone | ⟨uri, b, t, huri, hne, ht, hparse⟩⟩ := href.place hs.toConsistent
  · have hraise : hold ref = raise (.noArtifactsUri ref.runId) := by rw [hold, hnone]
    rw [hraise] at h
    obtain ⟨-, -, rfl⟩ := h
    exact .inl rfl
  have hput : hold ref =
      (request (.putObject b (runPrefix t ref.runId ++ retentionMarker) [])).bind fun _ =>
      ret (runPrefix t ref.runId ++ retentionMarker) := by
    simp only [hold, huri, if_neg hne, writeRetentionMarker, markerKey_of_parse hid hparse,
      ofExcept_ok, bind_eq, ret_bind, pure_eq]
  -- the put has its effect or not, whatever its answer
  have hdone : ∀ {l a},
      Serves F s.1 (.putObject b (runPrefix t ref.runId ++ retentionMarker) []) l a w' →
      w'.registry = s.1.registry ∨
        w'.registry = s.1.registry.pin retentionMarker [] ref.runId := by
    intro l a hserve
    rcases hserve.effect with rfl | ⟨a', -, time, rfl⟩ | ⟨errs, h⟩
    · exact .inl rfl
    swap
    · exact h.elim
    right
    have hconf : OnlyRun ref.runId s.1 (s.1.setBucket b
        ((s.1.s3 b).put (runPrefix t ref.runId ++ retentionMarker) ⟨time, [], none⟩)) :=
      onlyRun_put (isKeyOf_append ht)
    apply hs.registry_pin hid hconf Iff.rfl
    obtain ⟨run, hr, htag⟩ := href.uri
    unfold World.found
    rw [World.setBucket_mlflow, hr]
    cases hu : isUsableRun run with
    | false => simp only [Option.filter, hu, Bool.false_eq_true, if_false, Option.map_none]
    | true =>
      simp only [Option.filter, hu, if_true, Option.map_some, Option.some.injEq, Registry.mark,
        Entry.mk.injEq, true_and]
      have huri' : (toRef (ref.runId, run)).artifactsUri = some uri := htag.symm.trans huri
      rw [filesOf_parsed huri' hparse, filesOf_parsed huri' hparse]
      funext name
      simp only [World.setBucket_s3_self]
      -- the marker is a file of the entry like any other
      by_cases hname : name = retentionMarker
      · rw [hname, get_put_self, Function.update_self]
        rfl
      · have hkey : runPrefix t ref.runId ++ name ≠ runPrefix t ref.runId ++ retentionMarker :=
          fun he => hname (List.append_cancel_left he)
        rw [get_put_ne _ _ hkey, Function.update_of_ne hname]
  rw [hput] at h
  rcases exec_bind.1 h with ⟨e, he, -⟩ | ⟨u, tr₁, tr₂, w₁, h₁, ⟨-, -, rfl⟩, -⟩
  · obtain ⟨l, hserve, -⟩ := exec_request.1 he
    exact hdone hserve
  · obtain ⟨l, hserve, -⟩ := exec_request.1 h₁
    exact hdone hserve

theorem softDelete_registry {r : Except PyExc Unit} (hs : Accounted s)
    (h : Exec (Serves F) (request (.deleteRun id)) s.1 tr r w') : w'.registry = s.1.registry ∨
      w'.registry = s.1.registry.withdraw id := by
  obtain ⟨l, hserve, -⟩ := exec_request.1 h
  obtain ⟨hs3, hruns, -⟩ := serves_deleteRun hserve
  by_cases hu : Usable id w'
  · left
    obtain ⟨run, hr, -⟩ := hruns.usable hu
    apply hs.registry_same (hs.hex hr) (onlyRun_deleteRun hserve) (hruns.used id)
    apply found_congr (hruns.run_eq hu)
    intro run' hr'
    apply filesOf_eq ((hs.refersTo hr').place hs.toConsistent).2
    intro b k _
    rw [hs3]
  · cases hr : s.1.mlflow.runs id with
    | some run =>
      exact .inr (hs.registry_withdraw (hs.hex hr) (onlyRun_deleteRun hserve) (hruns.used id) hu)
    | none =>
      -- no run: nothing can change
      left
      have hw : w' = s.1 := by
        rcases hserve.effect with rfl | ⟨a', h⟩ | ⟨errs, h⟩
        · rfl
        · have h : WritesRun s.1 id Run.setDeleted a' w' := h
          rw [WritesRun, hr] at h
          exact h.2
        · exact h.elim
      rw [hw]

theorem purge_registry {r : Except PyExc ℕ} (hs : Accounted s) (href : RefersTo s ref)
    (h : Exec (Serves F) (purge ref true) s.1 tr r w') (hdone : CarriedThrough s.1 ref.runId tr) :
    w'.registry = s.1.registry ∨ w'.registry = s.1.registry.withdraw ref.runId := by
  obtain ⟨hid, hplace⟩ := href.place hs.toConsistent
  obtain ⟨w₁, tr₁, tr₂, rfl, hparts⟩ := exec_purge_parts h
  obtain ⟨hml, hcalls, hobjects⟩ := hparts.removes hplace
  have hers : OnlyRun ref.runId s.1 w₁ ∧ ((∀ st ∈ tr₁, ∀ b k, ¬ Removes b k st) →
      ∀ b k, (w₁.s3 b).get k = (s.1.s3 b).get k) := by
    rcases hparts.objects with ⟨-, rfl⟩ | ⟨uri, r, huri, hexec⟩
    · exact ⟨.refl _, fun _ _ _ => rfl⟩
    rcases hplace with hnone | ⟨uri', b, t, huri', -, ht, hparse⟩
    · cases hnone.symm.trans huri
    obtain rfl := Option.some.inj (huri'.symm.trans huri)
    obtain ⟨hers, hbelow⟩ := exec_deletePrefix_erases hparse hexec
    constructor
    · apply onlyRun_erases hers
      rintro k ⟨st, hst, hrm⟩
      obtain ⟨name, rfl⟩ := hbelow st hst k hrm
      exact isKeyOf_append ht
    · intro hno b' k
      by_cases hb : b' = b
      · apply get_congr
        intro v
        rw [hb, hers.entries]
        apply and_iff_left
        rintro ⟨st, hst, hrm⟩
        exact hno st hst b k hrm
      · rw [hers.others b' hb]
  have hrun : OnlyRun ref.runId w₁ w' ∧ w'.s3 = w₁.s3 ∧ KeepsOrDeletes w₁ w' ∧
      (SoftDeleted ref.runId tr₂ → ¬ Usable ref.runId w') := by
    rcases hparts.run with ⟨rfl, rfl⟩ | ⟨l, a, hserve, rfl⟩
    · refine ⟨.refl _, rfl, .refl _, ?_⟩
      rintro ⟨st, hst, -⟩
      cases hst
    · obtain ⟨hs3, hruns, hgone⟩ := serves_deleteRun hserve
      refine ⟨onlyRun_deleteRun hserve, hs3, hruns, ?_⟩
      rintro ⟨st, hst, -, hl⟩
      rw [List.mem_singleton.1 hst] at hl
      exact hgone hl
  obtain ⟨hconf, hs3, hruns, hdeleted⟩ := hrun
  have hconf : OnlyRun ref.runId s.1 w' := hers.1.trans hconf
  have hruns : KeepsOrDeletes s.1 w' := by
    unfold KeepsOrDeletes
    rw [← hml]
    exact hruns
  by_cases hu : Usable ref.runId w'
  swap
  · exact .inr (hs.registry_withdraw hid hconf (hruns.used _) hu)
  left
  -- a run that is still usable has lost no object, or the purge was not carried through
  have hno : ∀ st ∈ tr₁, ∀ b k, ¬ Removes b k st := by
    intro st hst b k hrm
    obtain ⟨st', hst', hc, hl⟩ :=
      hdone (hruns.usable hu) ⟨st, List.mem_append_left _ hst, b, k, hrm⟩
    rcases List.mem_append.1 hst' with hst' | hst'
    · have hcall := hcalls st' hst'
      rw [hc] at hcall
      exact hcall
    · exact hdeleted ⟨st', hst', hc, hl⟩ hu
  apply hs.registry_same hid hconf (hruns.used _)
  apply found_congr (hruns.run_eq hu)
  intro run' hr'
  apply filesOf_eq ((hs.refersTo hr').place hs.toConsistent).2
  intro b k _
  rw [hs3]
  exact hers.2 hno b k

/-- The programs of a collector change no run, and take away what their trace says. -/
theorem exec_sweepCalls {α : Type} {p : Action α} {r : Except PyExc α} (hp : p.Uses SweepCall)
    (h : Exec (Serves F) p w tr r w') : w'.mlflow = w.mlflow ∧ ∀ b (e : Key × Obj),
      e ∈ (w'.s3 b).entries ↔ e ∈ (w.s3 b).entries ∧ ∀ st ∈ tr, ¬ Removes b e.1 st := by
  induction p generalizing w tr with
  | ret a =>
    obtain ⟨rfl, -, rfl⟩ := h
    exact ⟨rfl, fun b e => by simp⟩
  | raise e =>
    obtain ⟨rfl, -, rfl⟩ := h
    exact ⟨rfl, fun b e => by simp⟩
  | call c k ih =>
    obtain ⟨l, a, w₁, tr', hserve, rfl, h⟩ := h
    obtain ⟨hml, hentries⟩ := ih a (hp.2 a) h
    have hstep : w₁.mlflow = w.mlflow ∧ ∀ b (e : Key × Obj), e ∈ (w₁.s3 b).entries ↔
        e ∈ (w.s3 b).entries ∧ ¬ Removes b e.1 ⟨c, l, a, w₁⟩ := by
      -- a sweep looks or deletes
      by_cases hlook : LookCall c
      · obtain rfl := serves_lookCall hlook hserve
        refine ⟨rfl, fun b e => (and_iff_left ?_).symm⟩
        apply not_removes
        rintro b keys rfl
        exact hlook
      · cases c with
        | deleteObjects b keys =>
          obtain rfl := serves_deleteObjects_eq hserve
          refine ⟨rfl, fun b' e => ?_⟩
          by_cases hb : b' = b
          · subst hb
            rw [World.deleteKeys_s3_self, SortedMap.mem_restrict_entries, decide_eq_true_iff,
              List.mem_filter]
            apply and_congr_right
            intro _
            apply not_congr
            constructor
            · rintro ⟨hk, hl⟩
              exact ⟨keys, rfl, hk, hl⟩
            · rintro ⟨keys', hc, hk, hl⟩
              cases hc
              exact ⟨hk, hl⟩
          · have hno : ¬ Removes b' e.1
                (⟨.deleteObjects b keys, l, a, w.deleteKeys b (keys.filter l.deletes)⟩ :
                  Step Call Ans Fate World) := by
              rintro ⟨keys', hc, -⟩
              cases hc
              exact hb rfl
            rw [World.deleteKeys, World.setBucket_s3_ne hb]
            exact (and_iff_left hno).symm
        | listCommonPrefixes b pre => exact absurd trivial hlook
        | listObjects b pre => exact absurd trivial hlook
        | getRun id => exact absurd trivial hlook
        | _ => exact hp.1.elim
    refine ⟨hml.trans hstep.1, fun b e => ?_⟩
    rw [hentries, hstep.2, List.forall_mem_cons, and_assoc]

theorem sweep_registry {n : ℕ} {j : Janitor} {r : Except PyExc SweepReport} (hs : Accounted s)
    (h : Exec (Serves Honest) (j.sweep true) s.1 tr r w') : w'.registry = s.1.registry := by
  have hs' : Consistent operators (w', s.2 ++ tr.map (.collector n, ·)) :=
    sweep_consistent hs.toConsistent h
  obtain ⟨hml, hentries⟩ := exec_sweepCalls (uses_sweep true) h
  apply registry_eq
  · intro id
    rw [hml]
  intro id
  by_cases hu : Usable id s.1
  swap
  · have hu' : ¬ Usable id w' := by
      unfold Usable
      rw [hml]
      exact hu
    rw [World.found_eq_none hu, World.found_eq_none hu']
  apply found_congr (by rw [hml])
  intro run hr
  apply filesOf_eq ((hs.refersTo hr).place hs.toConsistent).2
  intro b k hk
  apply get_congr
  intro v
  rw [hentries]
  apply and_iff_left
  intro st hst hrm
  -- a removed object belongs to a dead run, and this one is usable
  obtain ⟨i, id', hc, hk', run', hr', hd⟩ := hs'.collected (.collector n) st
    (List.mem_append_right _ (List.mem_map_of_mem hst)) ⟨n, rfl⟩ b k hrm
  obtain rfl := isKeyOf_unique (hs.hex hr) (hs'.created i id' hc).1 hk hk'
  obtain ⟨run'', hr'', hst'', hl⟩ := hu
  have hr₁ : s.1.mlflow.runs id = some run' := hml ▸ hr'
  obtain rfl := Option.some.inj (hr₁.symm.trans hr'')
  rw [disposition_orphan_iff] at hd
  rcases hd with hd | hd
  · cases hl.symm.trans hd
  · exact hd.2.2 hst''

end Operations

end Accel.Model
