import AccelProf.Layout.Copy
import AccelProf.Platform.Registry
import AccelProf.Store.RoundTrip

/-! A `log` publishes: its run is found with what was recorded and planned, keeps it through every
later operation, and is never found again once it is withdrawn. -/

namespace Accel.Model
open Data Program Prog

variable {s s' s₁ s₂ : State Operator} {w w₁ w' : World} {tr : List (Step Call Ans Fate World)}
  {store : Store} {fs : LocalFs} {args : LogArgs} {id : Str} {F : Call → Fate → Prop}

section Log

/-- One run more than before; everything else that is new belongs to it. -/
structure Adds (id : Str) (w w' : World) (tr : List (Step Call Ans Fate World)) : Prop where
  hex : isRunId id = true
  fresh : w.mlflow.runs id = none
  created : ∃ st ∈ tr, createdId st = some id
  onlyRun : OnlyRun id w w'
  there : w'.mlflow.runs id ≠ none

theorem exec_createRun_creates {i : Identity}
    (h : Exec (Serves F) (createRun i) w tr (.ok id) w') :
    ∃ st ∈ tr, createdId st = some id := by
  simp only [createRun, bind_eq] at h
  obtain ⟨found, tr₁, tr₂, w₁, -, h₂, rfl⟩ := exec_bind_ok.1 h
  obtain ⟨l, -, rfl⟩ := exec_request.1 h₂
  exact ⟨_, List.mem_append_right _ (List.mem_singleton_self _), rfl⟩

theorem isKeyOf_pre (ha : safeId args.identity.aliasName = true) {k : Key}
    (hk : args.pre id <+: k) : IsKeyOf id k :=
  ⟨args.identity.aliasName, slash_not_mem_of_safeId ha, hk⟩

theorem Created.onlyRun {i : Identity} {expId : Str} {start : Option Int}
    (h : Created i id expId start w w') : OnlyRun id w w' := by
  refine ⟨fun id' hne => ?_, fun b e _ => ?_⟩
  · rw [h.runs, Function.update_of_ne hne]
  · rw [h.s3]

theorem Working.onlyRun {run : Run} (ha : safeId args.identity.aliasName = true)
    (h : Working store args id run w w') : OnlyRun id w w' := by
  obtain ⟨run', ht, -⟩ := h
  exact (onlyRun_withRun w id run').trans (onlyRun_touches ht fun _ => isKeyOf_pre ha)

theorem Untouched.onlyRun (ha : safeId args.identity.aliasName = true)
    (h : Untouched store args id w w') : OnlyRun id w w' := by
  refine ⟨h.runs, fun b e he => ?_⟩
  by_cases hb : b = store.traceBucket.name
  · rw [hb]
    apply h.objects
    intro hk
    exact he (isKeyOf_pre ha hk)
  · rw [h.buckets b hb]

/-- The place of a run under a valid alias. A line break after the alias is not part of it. -/
theorem parse_artifactsUri_safeId {a : Str} (b : BucketName) (ha : safeId a = true)
    (hid : isRunId id = true) : ∃ t, safeIdBody t = true ∧
      parseS3Uri (artifactsUri b.name a id) = .ok ⟨b.name, runPrefix t id⟩ := by
  obtain ⟨t, ht, hkey, hrefused⟩ := uriKey_of_safeId ha hid
  have hparse := parseS3Uri_runPrefix b
    (runPrefix_isTwoField (slash_not_mem_of_safeId ha) (not_mem_of_isRunId hid))
  rw [hrefused, if_neg (by simp), hkey] at hparse
  exact ⟨t, ht, hparse⟩

/-- The clean-up leaves the run unusable, and what is not the run's alone. -/
theorem exec_cleanUp_onlyRun {run : Run} {r : Except PyExc Unit}
    (ha : safeId args.identity.aliasName = true) (hid : isRunId id = true)
    (hrun : w.mlflow.runs id = some run) (hst : run.status ≠ some .finished)
    (h : Exec (Serves F) (cleanUp (args.uri store id) id) w tr r w') :
    OnlyRun id w w' ∧ w'.mlflow.runs id ≠ none ∧ ¬ Usable id w' := by
  obtain ⟨-, tr₁, rd, w₁, l, a, hd, -, hs⟩ := exec_cleanUp h
  obtain ⟨t, ht, hparse⟩ := parse_artifactsUri_safeId store.traceBucket ha hid
  obtain ⟨hers, hbelow⟩ := exec_deletePrefix_erases hparse hd
  have hconf : OnlyRun id w w₁ := by
    apply onlyRun_erases hers
    rintro k ⟨st, hst, hrm⟩
    obtain ⟨name, rfl⟩ := hbelow st hst k hrm
    exact isKeyOf_append ht
  have hrun₁ : w₁.mlflow.runs id = some run := by rw [hers.mlflow, hrun]
  rcases serves_setTerminated hrun₁ hs with ⟨rfl, -⟩ | ⟨rfl, -⟩
  · refine ⟨hconf, by rw [hrun₁]; simp, ?_⟩
    rintro ⟨run', hr', hst', -⟩
    obtain rfl := Option.some.inj (hrun₁.symm.trans hr')
    exact hst hst'
  · refine ⟨hconf.trans (onlyRun_withRun w₁ id _), by simp, ?_⟩
    rintro ⟨run', hr', hst', -⟩
    rw [World.withRun_runs_self] at hr'
    obtain rfl := Option.some.inj hr'
    cases hst'

/-- A `log` adds no run, adds one that is not usable, or adds its run and completes it. -/
theorem exec_log_outcome {r : Except PyExc Str}
    (h : Exec (Serves Lossless) (log store fs args) w tr r w') :
    (w'.s3 = w.s3 ∧ w'.mlflow.runs = w.mlflow.runs ∧ ∃ e, r = .error e) ∨
    ∃ id, Adds id w w' tr ∧ ((¬ Usable id w' ∧ ∃ e, r = .error e) ∨
      r = .ok id ∧ safeId args.identity.aliasName = true ∧
        validateContent args.metrics (store.withNamespace args.tags) = .ok () ∧
        Logged store fs args id w w') := by
  have hlost : ∀ {c : Call} {e : ServiceError}, Lossless c (.lost e) →
      ∃ path b key body hex, c = .uploadFile path b key body hex := fun h => h _ rfl
  cases hi : validateIdentity args.identity with
  | error e =>
    simp only [log, bind_eq, hi] at h
    obtain ⟨-, rfl, rfl⟩ := h
    exact .inl ⟨rfl, rfl, e, rfl⟩
  | ok u =>
    have ha := safeId_of_validate hi
    rcases exec_log h with ⟨-, rfl, e, hr, -⟩ | ⟨e, hr, he⟩ | ⟨id, tr₁, w₁, tr₂, hcreate, -, hbody⟩
    · exact .inl ⟨rfl, rfl, e, hr⟩
    · rcases (exec_createRun he).2 with ⟨hreg, -⟩ | ⟨id, expId, start, -, h' | ⟨_, _, _, hF, -⟩⟩
      · exact .inl ⟨hreg.s3, hreg.runs, e, hr⟩
      · cases h'
      · obtain ⟨_, _, _, _, _, hc⟩ := hlost hF
        cases hc
    obtain ⟨expId, start, hc⟩ := exec_createRun_ok hcreate
    obtain ⟨st, hst, hcreated⟩ := exec_createRun_creates hcreate
    right
    refine ⟨id, ?_⟩
    rcases hbody with ⟨rfl, rfl, hbody⟩ | ⟨e, w₂, tr₃, rfl, rfl, hbody, hclean⟩
    · obtain ⟨planned, w₂, hready, rfl⟩ := exec_body_ok hc.run hbody
      have hlogged := logged_of_ready hc hready
      refine ⟨⟨hc.shape, hc.fresh, ⟨st, List.mem_append_left _ hst, hcreated⟩,
        hlogged.untouched.onlyRun ha, by simp⟩, .inr ⟨rfl, ha, hready.valid, hlogged⟩⟩
    · obtain ⟨hwork, -⟩ := exec_body_error (fun e hF => by
        obtain ⟨_, _, _, _, _, hx⟩ := hlost hF
        cases hx) hc.run hbody
      obtain ⟨run, hrun, hstatus, -⟩ := hwork.run_eq
      have hst' : run.status ≠ some .finished := by
        rw [hstatus]
        exact fun h => by cases h
      obtain ⟨hconf, hthere, hnot⟩ := exec_cleanUp_onlyRun ha hc.shape hrun hst' hclean
      refine ⟨⟨hc.shape, hc.fresh, ⟨st, List.mem_append_left _ hst, hcreated⟩,
        (hc.onlyRun.trans (hwork.onlyRun ha)).trans hconf, hthere⟩, .inl ⟨hnot, e, rfl⟩⟩

end Log

section Published

/-- The record has what was logged, and the files are those that the plan puts at its place. -/
structure Publishes (store : Store) (fs : LocalFs) (args : LogArgs) (id : Str)
    (e : Entry RunRef Str Bytes) : Prop where
  record : Returned store args id e.record
  files : ∃ planned p, args.plan fs id = .ok planned ∧ parseS3Uri (args.uri store id) = .ok p ∧
    ∀ name c, e.files name = some c ↔ ∃ path, (path, p.key ++ name) ∈ planned ∧ fs.read path = c

/-- An entry that some producer published. -/
def Published (id : Str) (e : Entry RunRef Str Bytes) : Prop :=
  ∃ store fs args, Publishes store fs args id e

theorem found_of_logged (hs : Accounted s) (hid : isRunId id = true)
    (hfresh : s.1.mlflow.runs id = none) (ha : safeId args.identity.aliasName = true)
    (hv : validateContent args.metrics (store.withNamespace args.tags) = .ok ())
    (h : Logged store fs args id s.1 w') :
    ∃ e, w'.found id = some e ∧ Publishes store fs args id e := by
  obtain ⟨expId, start, -, hrun⟩ := h.record
  obtain ⟨planned, hplan, hholds, hrest⟩ := h.artifacts
  obtain ⟨t, ht, hparse⟩ := parse_artifactsUri_safeId store.traceBucket ha hid
  have hret : Returned store args id _ := returned_of_record id expId start hv
  have husable := hret.usable
  rw [isUsable_toRef] at husable
  refine ⟨_, World.found_eq_some.2 ⟨_, hrun, husable, rfl⟩, hret, planned, _, hplan, hparse, ?_⟩
  intro name c
  rw [filesOf_parsed hret.artifactsUri hparse, Option.map_eq_some_iff]
  constructor
  · rintro ⟨obj, hget, rfl⟩
    have hobj := SortedMap.get_eq_some.1 hget
    by_cases hk : runPrefix t id ++ name ∈ planned.map Prod.snd
    · obtain ⟨f, hf, hfk⟩ := List.mem_map.1 hk
      obtain ⟨time, hheld⟩ := hholds f hf
      have heq := SortedMap.entry_unique hobj hheld hfk.symm
      refine ⟨f.1, ?_, ?_⟩
      · rw [← hfk]
        exact hf
      · rw [(Prod.mk.inj heq).2]
    · have hbefore := (hrest (_, obj) hk).1 hobj
      exact absurd (SortedMap.mem_of_entry hbefore) (hs.free hid hfresh (isKeyOf_append ht))
  · rintro ⟨path, hf, rfl⟩
    obtain ⟨time, hheld⟩ := hholds _ hf
    exact ⟨_, SortedMap.get_eq_some.2 hheld, rfl⟩

end Published

section Refinement

/-- The change of the registry that an operation is, if it is any. -/
def Refines (w w' : World) : Prop := w'.registry = w.registry ∨
  Registry.Change Published retentionMarker [] w.registry w'.registry

theorem log_refines {r : Except PyExc Str} (hs : Accounted s)
    (h : Exec (Serves Lossless) (log store fs args) s.1 tr r w') : Refines s.1 w' := by
  rcases exec_log_outcome h with ⟨hs3, hruns, -⟩ | ⟨id, hadds, hout⟩
  · left
    apply registry_eq
    · intro id
      rw [hruns]
    · intro id
      apply found_congr (by rw [hruns])
      intro run hr
      apply filesOf_eq ((hs.refersTo hr).place hs.toConsistent).2
      intro b k _
      rw [hs3]
  obtain ⟨hused, hentries⟩ := hs.registry_new hadds.hex hadds.onlyRun hadds.there
  have hnew : id ∉ s.1.registry.used := fun hm => hm hadds.fresh
  -- an id was handed out: it is claimed, and perhaps an entry is published under it
  right
  rcases hout with ⟨hnot, -⟩ | ⟨-, ha, hv, hlogged⟩
  · have hclaim : w'.registry = s.1.registry.claim id := by
      refine Registry.ext hused (hentries.trans ?_)
      rw [World.found_eq_none hnot]
      have hbefore : s.1.registry.entries id = none := World.found_eq_none (by
        rintro ⟨run, hr, -⟩
        cases hr.symm.trans hadds.fresh)
      show Function.update s.1.registry.entries id none = s.1.registry.entries
      rw [← hbefore, Function.update_eq_self]
    rw [hclaim]
    exact .claim hnew
  · obtain ⟨e, he, hpub⟩ := found_of_logged hs hadds.hex hadds.fresh ha hv hlogged
    have hpublish : w'.registry = s.1.registry.publish id e := by
      refine Registry.ext hused (hentries.trans ?_)
      rw [he]
      rfl
    rw [hpublish]
    exact .publish hnew ⟨store, fs, args, hpub⟩

/-- Every operation is one change of the registry, or none. -/
theorem Manages.refines (hs : Accounted s) (h : Manages CarriedThrough s s') :
    Refines s.1 s'.1 := by
  cases h with
  | log hnew h => exact log_refines hs h
  | hold href h =>
    rcases hold_registry hs href h with heq | heq
    · exact .inl heq
    · right
      rw [heq]
      exact .pin
  | purge href h hdone =>
    rcases purge_registry hs href h hdone with heq | heq
    · exact .inl heq
    · right
      rw [heq]
      exact .withdraw
  | softDelete h =>
    rcases softDelete_registry hs h with heq | heq
    · exact .inl heq
    · right
      rw [heq]
      exact .withdraw
  | @sweep n j w' tr r h => exact .inl (sweep_registry (n := n) hs h)

theorem creates_left {J : List (Operator × Step Call Ans Fate World)} {i : Operator}
    (h : Creates s.2 i id) : Creates (s.2 ++ J) i id := by
  obtain ⟨st, hst, hc⟩ := h
  exact ⟨st, List.mem_append_left J hst, hc⟩

/-- An operation that adds no run leaves every run accounted for. -/
theorem Accounted.of_refines {J : List (Operator × Step Call Ans Fate World)} (hs : Accounted s)
    (hc : Consistent operators (w', s.2 ++ J))
    (hused : w'.registry.used = s.1.registry.used) : Accounted (w', s.2 ++ J) := by
  refine ⟨hc, fun id run hr => ?_⟩
  have hin : id ∈ w'.registry.used := by
    show w'.mlflow.runs id ≠ none
    have hr : w'.mlflow.runs id = some run := hr
    rw [hr]
    exact Option.some_ne_none run
  rw [hused] at hin
  obtain ⟨run₀, hr₀⟩ := Option.ne_none_iff_exists'.1 hin
  obtain ⟨i, hi⟩ := hs.creator id run₀ hr₀
  exact ⟨i, creates_left hi⟩

theorem Manages.accounted (hs : Accounted s) (h : Manages CarriedThrough s s') :
    Accounted s' := by
  have hc := h.consistent hs.toConsistent
  cases h with
  | @log n store fs args w' tr r hnew h =>
    rcases exec_log_outcome h with ⟨-, hruns, -⟩ | ⟨id, hadds, -⟩
    · apply hs.of_refines hc
      show {id | w'.mlflow.runs id ≠ none} = {id | s.1.mlflow.runs id ≠ none}
      rw [hruns]
    · refine ⟨hc, fun id' run hr => ?_⟩
      by_cases hid : id' = id
      · obtain ⟨st, hst, hcreated⟩ := hadds.created
        rw [hid]
        exact ⟨.worker n, st, List.mem_append_right _ (List.mem_map_of_mem hst), hcreated⟩
      · have hr : w'.mlflow.runs id' = some run := hr
        rw [hadds.onlyRun.runs id' hid] at hr
        obtain ⟨i, hi⟩ := hs.creator id' run hr
        exact ⟨i, creates_left hi⟩
  | hold href h =>
    apply hs.of_refines hc
    rcases hold_registry hs href h with heq | heq
    · rw [heq]
    · rw [heq]
      rfl
  | purge href h hdone =>
    apply hs.of_refines hc
    rcases purge_registry hs href h hdone with heq | heq
    · rw [heq]
    · rw [heq]
      rfl
  | softDelete h =>
    apply hs.of_refines hc
    rcases softDelete_registry hs h with heq | heq
    · rw [heq]
    · rw [heq]
      rfl
  | @sweep n j w' tr r h =>
    apply hs.of_refines hc
    exact congrArg Registry.used (sweep_registry (n := n) hs h)

/-- One operation after another. -/
abbrev Managed : State Operator → State Operator → Prop :=
  Relation.ReflTransGen (Manages CarriedThrough)

theorem Managed.accounted (h : Managed s s') (hs : Accounted s) : Accounted s' := by
  induction h with
  | refl => exact hs
  | tail _ hstep ih => exact hstep.accounted ih

theorem Managed.later (h : Managed s s') (hs : Accounted s) :
    Registry.Later Published retentionMarker [] s.1.registry s'.1.registry := by
  induction h with
  | refl => exact .refl
  | tail hrun hstep ih =>
    rcases hstep.refines (Managed.accounted hrun hs) with heq | hchange
    · rw [heq]
      exact ih
    · exact ih.tail hchange

/-- A platform on which nothing was ever stored. -/
structure Blank (w : World) : Prop where
  objects : ∀ b, w.s3 b = .empty
  runs : ∀ id, w.mlflow.runs id = none

theorem Blank.accounted (h : Blank w) : Accounted (w, []) :=
  ⟨consistent_start h.objects, fun id run hr => by
    cases hr.symm.trans (h.runs id)⟩

theorem Blank.registry (h : Blank w) : w.registry = .empty := by
  apply Registry.ext
  · apply Set.eq_empty_of_forall_notMem
    intro id hid
    exact hid (h.runs id)
  · funext id
    show w.found id = none
    unfold World.found
    rw [h.runs id]
    rfl

/-- The lookup by id is the lookup in the registry: it raises for an id that was never handed out,
and else returns the record of the entry, if there is one. -/
theorem exec_resolve_registry {r : Except PyExc (List RunRef)}
    (h : Exec (Serves Reliable) (resolve id .id false) w tr r w') :
    (id ∉ w.registry.used → ∃ e, r = .error e) ∧
      (id ∈ w.registry.used → r = .ok ((w.registry.entries id).toList.map Entry.record)) := by
  cases hr : w.mlflow.runs id with
  | none =>
    refine ⟨fun _ => ?_, fun hm => absurd hr hm⟩
    rcases exec_bind.1 h with ⟨e, -, he⟩ | ⟨runs, tr₁, tr₂, w₁, h₁, -, -⟩
    · exact ⟨e, he⟩
    obtain ⟨run, tr₃, tr₄, w₂, h₃, -, -⟩ := exec_bind_ok.1 h₁
    obtain ⟨l, ⟨hl, hs⟩, -⟩ := exec_request.1 h₃
    obtain rfl : l = .ok := hl
    obtain ⟨-, ha⟩ := hs
    rw [hr] at ha
    cases ha
  | some run =>
    have hused : id ∈ w.registry.used := by
      show w.mlflow.runs id ≠ none
      rw [hr]
      exact Option.some_ne_none run
    refine ⟨fun hn => absurd hused hn, fun _ => ?_⟩
    obtain ⟨rfl, -⟩ := exec_resolve_id hr h
    show _ = Except.ok ((w.found id).toList.map Entry.record)
    unfold World.found
    rw [hr]
    cases hu : isUsableRun run with
    | true => simp [kept, isUsable_toRef, Option.filter, hu]
    | false => simp [kept, isUsable_toRef, Option.filter, hu]

/-- The platform refines the registry: from a blank platform on, every history of operations is a
history of publications, marks and withdrawals, and the lookup by id reads the registry off. -/
theorem platform_refines_registry {w₀ : World} (hblank : Blank w₀) (h : Managed (w₀, []) s) :
    Registry.Later Published retentionMarker [] .empty s.1.registry ∧
    ∀ id tr r w', Exec (Serves Reliable) (resolve id .id false) s.1 tr r w' →
      (id ∉ s.1.registry.used → ∃ e, r = .error e) ∧
      (id ∈ s.1.registry.used →
        r = .ok ((s.1.registry.entries id).toList.map Entry.record)) := by
  constructor
  · have hlater := h.later hblank.accounted
    rw [hblank.registry] at hlater
    exact hlater
  · intro id tr r w' hx
    exact exec_resolve_registry hx

end Refinement

section Lasting

/-- The lookup by id returns the record, and at its place stand its files, perhaps with the
retention marker. -/
structure Delivered (e : Entry RunRef Str Bytes) (w : World) : Prop where
  lookup : ∀ tr r w', Exec (Serves Reliable) (resolve e.record.runId .id false) w tr r w' →
    r = .ok [e.record]
  files : w.filesOf e.record = e.files ∨
    w.filesOf e.record = Function.update e.files retentionMarker (some [])

/-- The id is known, and no usable run is found under it. -/
def Gone (id : Str) (w : World) : Prop :=
  ∀ tr r w', Exec (Serves Reliable) (resolve id .id false) w tr r w' → r = .ok []

theorem delivered_of_entry {e e' : Entry RunRef Str Bytes} (hid : e.record.runId = id)
    (h : w.registry.entries id = some e') (he : e' = e ∨ e' = Registry.mark retentionMarker [] e) :
    Delivered e w := by
  have hused : id ∈ w.registry.used := w.registry.entry_used id e' h
  have hrecord : e'.record = e.record := by
    rcases he with rfl | rfl
    · rfl
    · rfl
  obtain ⟨run, -, -, hentry⟩ := World.found_eq_some.1 h
  have hfiles : w.filesOf e.record = e'.files := by rw [← hrecord, hentry]
  constructor
  · intro tr r w' hx
    rw [hid] at hx
    rw [(exec_resolve_registry hx).2 hused, h]
    exact congrArg (fun ref => Except.ok [ref]) hrecord
  · rw [hfiles]
    rcases he with rfl | rfl
    · exact .inl rfl
    · exact .inr rfl

theorem gone_of_entry (hused : id ∈ w.registry.used) (h : w.registry.entries id = none) :
    Gone id w := by
  intro tr r w' hx
  rw [(exec_resolve_registry hx).2 hused, h]
  rfl

theorem publish_of_log {n : ℕ} (hs : Accounted s₁) (hnew : ∀ st, (.worker n, st) ∉ s₁.2)
    (hlog : Exec (Serves Lossless) (log store fs args) s₁.1 tr (.ok id) w₁) :
    Accounted (w₁, s₁.2 ++ tr.map (.worker n, ·)) ∧
      ∃ e, Publishes store fs args id e ∧ w₁.registry.entries id = some e := by
  constructor
  · have hop : Manages CarriedThrough s₁ (w₁, s₁.2 ++ tr.map (.worker n, ·)) := .log hnew hlog
    exact hop.accounted hs
  rcases exec_log_outcome hlog with ⟨-, -, e, he⟩ | ⟨id', hadds, ⟨-, e, he⟩ | ⟨hr, ha, hv, hl⟩⟩
  · cases he
  · cases he
  · obtain rfl := Except.ok.inj hr
    obtain ⟨e, he, hpub⟩ := found_of_logged hs hadds.hex hadds.fresh ha hv hl
    exact ⟨e, hpub, he⟩

/-- What `log` returned an id for is found under that id with what was recorded and planned, at once
and after every later history, until it is withdrawn; from then on it is never found again. -/
theorem published_lasts {n : ℕ} {w₀ : World} (hblank : Blank w₀) (h₁ : Managed (w₀, []) s₁)
    (hnew : ∀ st, (.worker n, st) ∉ s₁.2)
    (hlog : Exec (Serves Lossless) (log store fs args) s₁.1 tr (.ok id) w₁) :
    ∃ e, Publishes store fs args id e ∧ Delivered e w₁ ∧
      ∀ s₂, Managed (w₁, s₁.2 ++ tr.map (.worker n, ·)) s₂ →
        Delivered e s₂.1 ∨ ∀ s₃, Managed s₂ s₃ → Gone id s₃.1 := by
  obtain ⟨hs, e, hpub, he⟩ := publish_of_log (Managed.accounted h₁ hblank.accounted) hnew hlog
  have hid : e.record.runId = id := hpub.record.runId
  have hused : id ∈ w₁.registry.used := w₁.registry.entry_used id e he
  refine ⟨e, hpub, delivered_of_entry hid he (.inl rfl), fun s₂ h₂ => ?_⟩
  have hlater := Managed.later h₂ hs
  rcases hlater.entry he with hnone | hsame | hmark
  · right
    intro s₃ h₃
    have hlater₃ := Managed.later h₃ (Managed.accounted h₂ hs)
    have hused₂ := hlater.used_subset hused
    exact gone_of_entry (hlater₃.used_subset hused₂) (hlater₃.gone hused₂ hnone)
  · exact .inl (delivered_of_entry hid hsame (.inl rfl))
  · exact .inl (delivered_of_entry hid hmark (.inr rfl))

theorem blank_noRuns : Blank noRuns := ⟨noRuns_s3, fun _ => rfl⟩

theorem platform_refines_registry_sample : Managed (noRuns, []) afterLog ∧
    Registry.Later Published retentionMarker [] .empty afterLog.1.registry := by
  have hrun : Managed (noRuns, []) afterLog := .single manages_afterLog
  exact ⟨hrun, (platform_refines_registry blank_noRuns hrun).1⟩

theorem exec_sampleLog_ok : ∃ tr w₁, Exec (Serves Lossless) sampleLog noRuns tr
    (.ok (sampleRunId '0')) w₁ := by
  have hout : (simulate (fun _ => .ok) sampleLog noRuns).2.1.toOption = some (sampleRunId '0') := by
    decide +kernel
  have hexec := exec_sampleLog
  cases hr : (simulate (fun _ => .ok) sampleLog noRuns).2.1 with
  | error e =>
    rw [hr] at hout
    cases hout
  | ok id =>
    rw [hr] at hout hexec
    obtain rfl := Option.some.inj hout
    exact ⟨_, _, hexec⟩

/-- A run right after it was logged. -/
theorem published_lasts_sample : ∃ w₁ e, Publishes sampleStore sampleFs sampleArgs
    (sampleRunId '0') e ∧ Delivered e w₁ := by
  obtain ⟨tr, w₁, hlog⟩ := exec_sampleLog_ok
  have hstart : Managed (noRuns, []) (noRuns, []) := .refl
  obtain ⟨e, hpub, hfound, -⟩ :=
    published_lasts (n := 0) blank_noRuns hstart (fun _ => List.not_mem_nil) hlog
  exact ⟨w₁, e, hpub, hfound⟩

end Lasting

section Origin

/-- An entry that a step brought is what a `log` published in it. -/
theorem Manages.new_entry {e : Entry RunRef Str Bytes} (hs : Accounted s)
    (h : Manages CarriedThrough s s') (hnone : s.1.registry.entries id = none)
    (he : s'.1.registry.entries id = some e) :
    ∃ (n : ℕ) (store : Store) (fs : LocalFs) (args : LogArgs)
      (tr : List (Step Call Ans Fate World)) (w' : World), (∀ st, (.worker n, st) ∉ s.2) ∧
      Exec (Serves Lossless) (Model.log store fs args) s.1 tr (.ok id) w' ∧
      s' = (w', s.2 ++ tr.map (.worker n, ·)) := by
  -- all but a `log` under this very id leave the entry as it was or take it away
  have hsame : s'.1.registry.entries id ≠ s.1.registry.entries id := by
    rw [hnone, he]
    exact Option.some_ne_none e
  cases h with
  | @log n store fs args w' tr r hnew h =>
    rcases exec_log_outcome h with ⟨hs3, hruns, -⟩ | ⟨id', hadds, hout⟩
    · apply absurd _ hsame
      have hfiles : w'.filesOf = s.1.filesOf := by
        unfold World.filesOf
        rw [hs3]
      show w'.found id = s.1.found id
      exact found_congr (by rw [hruns]) fun run _ => by rw [hfiles]
    by_cases hid : id = id'
    · subst hid
      rcases hout with ⟨hnot, -⟩ | ⟨rfl, -⟩
      · cases he.symm.trans (World.found_eq_none hnot)
      · exact ⟨n, store, fs, args, tr, w', hnew, h, rfl⟩
    · exact absurd (hs.found_other hadds.hex hadds.onlyRun hid) hsame
  | hold href h =>
    rcases hold_registry hs href h with heq | heq
    · exact absurd (congrArg (Registry.entries · id) heq) hsame
    · rw [heq] at he
      cases he.symm.trans (Registry.pin_none hnone)
  | purge href h hdone =>
    rcases purge_registry hs href h hdone with heq | heq
    · exact absurd (congrArg (Registry.entries · id) heq) hsame
    · rw [heq] at he
      cases he.symm.trans (Registry.withdraw_none hnone)
  | softDelete h =>
    rcases softDelete_registry hs h with heq | heq
    · exact absurd (congrArg (Registry.entries · id) heq) hsame
    · rw [heq] at he
      cases he.symm.trans (Registry.withdraw_none hnone)
  | @sweep n j w' tr r h =>
    exact absurd (congrArg (Registry.entries · id) (sweep_registry (n := n) hs h)) hsame

/-- The history contains the `log` that returned the id. -/
def LoggedIn (w₀ : World) (s : State Operator) (store : Store) (fs : LocalFs) (args : LogArgs)
    (id : Str) : Prop :=
  ∃ (s₁ : State Operator) (n : ℕ) (tr : List (Step Call Ans Fate World)) (w₁ : World),
    Managed (w₀, []) s₁ ∧ (∀ st, (.worker n, st) ∉ s₁.2) ∧
    Exec (Serves Lossless) (log store fs args) s₁.1 tr (.ok id) w₁ ∧
    Managed (w₁, s₁.2 ++ tr.map (.worker n, ·)) s

theorem loggedIn_of_entry {w₀ : World} {e : Entry RunRef Str Bytes} (hblank : Blank w₀)
    (h : Managed (w₀, []) s) (he : s.1.registry.entries id = some e) :
    ∃ store fs args, LoggedIn w₀ s store fs args id := by
  induction h generalizing e with
  | refl =>
    have hempty : w₀.registry.entries id = some e := he
    rw [hblank.registry] at hempty
    cases hempty
  | @tail s₁ s₂ hrun hstep ih =>
    cases hbefore : s₁.1.registry.entries id with
    | some e' =>
      obtain ⟨store, fs, args, s₀, n, tr, w₁, h₀, hnew, hlog, hrest⟩ := ih hbefore
      exact ⟨store, fs, args, s₀, n, tr, w₁, h₀, hnew, hlog, hrest.tail hstep⟩
    | none =>
      have hs := Managed.accounted hrun hblank.accounted
      obtain ⟨n, store, fs, args, tr, w', hnew, hlog, rfl⟩ := hstep.new_entry hs hbefore he
      exact ⟨store, fs, args, s₁, n, tr, w', hrun, hnew, hlog, .refl⟩

theorem resolve_entry {x : Str} {by_ : By} {refs : List RunRef}
    (h : Exec (Serves Reliable) (resolve x by_ false) w tr (.ok refs) w') :
    ∀ ref ∈ refs, w.registry.entries ref.runId = some ⟨ref, w.filesOf ref⟩ := by
  have hentry : ∀ {id run}, w.mlflow.runs id = some run → isUsable (toRef (id, run)) = true →
      w.registry.entries id = some ⟨toRef (id, run), w.filesOf (toRef (id, run))⟩ := by
    intro id run hr hu
    rw [isUsable_toRef] at hu
    exact World.found_eq_some.2 ⟨run, hr, hu, rfl⟩
  cases by_ with
  | alias_ =>
    cases hexp : w.mlflow.experiments x with
    | none => cases (exec_resolve_unknown hexp h).1
    | some expId =>
      obtain ⟨runs, hperm, hr, -⟩ := exec_resolve_alias hexp h
      obtain rfl := Except.ok.inj hr
      intro ref href
      obtain ⟨hin, hu⟩ := mem_kept.1 href
      obtain ⟨⟨id, run⟩, hm, rfl⟩ := List.mem_map.1 (hperm.mem_iff.1 hin)
      exact hentry (mem_matching.1 hm).2.1 (hu.resolve_left Bool.false_ne_true)
  | id =>
    obtain ⟨hunknown, hknown⟩ := exec_resolve_registry h
    by_cases hused : x ∈ w.registry.used
    · obtain rfl := Except.ok.inj (hknown hused)
      intro ref href
      obtain ⟨e, he, rfl⟩ := List.mem_map.1 href
      obtain ⟨run, hr, hu, rfl⟩ := World.found_eq_some.1 (Option.mem_toList.1 he)
      exact hentry hr (by rw [isUsable_toRef, hu])
    · obtain ⟨e, he⟩ := hunknown hused
      cases he
  | other text =>
    obtain ⟨-, hr, -⟩ := h
    cases hr

/-- Nothing is found that was not logged: behind each run that a lookup returns, by id or by alias,
stands a `log` of the same history that returned its id. The record is what that call recorded, and
the files are those it planned, perhaps with the retention marker. -/
theorem lookup_traces_back {w₀ : World} (hblank : Blank w₀) (h : Managed (w₀, []) s) {x : Str}
    {by_ : By} {refs : List RunRef}
    (hlook : Exec (Serves Reliable) (resolve x by_ false) s.1 tr (.ok refs) w') :
    ∀ ref ∈ refs, ∃ store fs args e, LoggedIn w₀ s store fs args ref.runId ∧
      Publishes store fs args ref.runId e ∧ ref = e.record ∧
      (s.1.filesOf ref = e.files ∨
        s.1.filesOf ref = Function.update e.files retentionMarker (some [])) := by
  intro ref href
  have hentry := resolve_entry hlook ref href
  obtain ⟨store, fs, args, hin⟩ := loggedIn_of_entry hblank h hentry
  obtain ⟨s₁, n, tr₁, w₁, h₁, hnew, hlog, h₂⟩ := id hin
  obtain ⟨hs, e, hpub, he⟩ := publish_of_log (Managed.accounted h₁ hblank.accounted) hnew hlog
  refine ⟨store, fs, args, e, hin, hpub, ?_⟩
  rcases (Managed.later h₂ hs).entry he with hnone | hsame | hmark
  · cases hentry.symm.trans hnone
  · have heq := Option.some.inj (hentry.symm.trans hsame)
    exact ⟨congrArg Entry.record heq, .inl (congrArg Entry.files heq)⟩
  · have heq := Option.some.inj (hentry.symm.trans hmark)
    exact ⟨congrArg Entry.record heq, .inr (congrArg Entry.files heq)⟩

theorem lookup_traces_back_sample : ∃ tr ref w',
    Exec (Serves Reliable) (resolve (sampleRunId '0') .id false) afterLog.1 tr (.ok [ref]) w' ∧
    ∃ store fs args, LoggedIn noRuns afterLog store fs args ref.runId := by
  have husable : Usable (sampleRunId '0') afterLog.1 := usable_of_any (by decide +kernel)
  obtain ⟨tr, ref, w', hlook, -⟩ := exec_resolve_of_usable husable
  have hrun : Managed (noRuns, []) afterLog := .single manages_afterLog
  obtain ⟨store, fs, args, e, hin, -⟩ :=
    lookup_traces_back blank_noRuns hrun hlook ref (List.mem_singleton_self ref)
  exact ⟨tr, ref, w', hlook, store, fs, args, hin⟩

end Origin

end Accel.Model
