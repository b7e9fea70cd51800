import AccelProf.Layout.Addresses
import AccelProf.Layout.Erasure
import AccelProf.Platform.Interleaving
import AccelProf.Store.Lookup

/-! The life of runs when one operation follows another: logged, held, purged, soft-deleted and
collected. A usable run keeps what its producer uploaded, as long as a purge that deletes objects
also gets the run deleted. -/

namespace Accel.Model
open Data Program Prog

/-- Who carries out an operation: nobody carries out two. -/
inductive Operator where
  | worker (n : ℕ)
  | collector (n : ℕ)

def operators : Parties Operator where
  collector i := ∃ n, i = .collector n
  retired _ := True

variable {s s' : State Operator} {w w' : World} {tr : List (Step Call Ans Fate World)}
  {i : Operator} {id : Str}
  {ref : RunRef} {F : Call → Fate → Prop}

/-- The record of a run that a `log` created; status and lifecycle stage may be out of date. -/
structure RefersTo (s : State Operator) (ref : RunRef) : Prop where
  created : ∃ i, Creates s.2 i ref.runId
  uri : ∃ run, s.1.mlflow.runs ref.runId = some run ∧ ref.artifactsUri = run.tags artifactsUriTag

def Usable (id : Str) (w : World) : Prop :=
  ∃ run, w.mlflow.runs id = some run ∧ run.status = some .finished ∧ run.lifecycleStage = .active

/-- The server deletes the run, whether or not its answer arrives. -/
def SoftDeleted (id : Str) (tr : List (Step Call Ans Fate World)) : Prop :=
  ∃ st ∈ tr, st.call = .deleteRun id ∧ (st.label = .ok ∨ ∃ e, st.label = .lost e)

/-- If the run is usable and S3 deletes anything, then MLflow deletes the run. -/
def CarriedThrough (w : World) (id : Str) (tr : List (Step Call Ans Fate World)) : Prop :=
  Usable id w → (∃ st ∈ tr, ∃ b k, Removes b k st) → SoftDeleted id tr

/-- One operation, alone. The calls of a producer fail without effect, except for uploads; MLflow
does not deny a collector a run that it has; all other calls may meet any fate. Purges meet `Q`. -/
inductive Manages (Q : World → Str → List (Step Call Ans Fate World) → Prop) :
    State Operator → State Operator → Prop
  | log {s : State Operator} {n : ℕ} {store : Store} {fs : LocalFs} {args : LogArgs} {w' : World}
      {tr : List (Step Call Ans Fate World)} {r : Except PyExc Str}
      (hnew : ∀ st, (.worker n, st) ∉ s.2)
      (h : Exec (Serves Lossless) (log store fs args) s.1 tr r w') :
      Manages Q s (w', s.2 ++ tr.map (.worker n, ·))
  | hold {s : State Operator} {n : ℕ} {ref : RunRef} {w' : World}
      {tr : List (Step Call Ans Fate World)}
      {r : Except PyExc Key} (href : RefersTo s ref)
      (h : Exec (Serves fun _ _ => True) (hold ref) s.1 tr r w') :
      Manages Q s (w', s.2 ++ tr.map (.worker n, ·))
  | purge {s : State Operator} {n : ℕ} {ref : RunRef} {w' : World}
      {tr : List (Step Call Ans Fate World)}
      {r : Except PyExc ℕ} (href : RefersTo s ref)
      (h : Exec (Serves fun _ _ => True) (purge ref true) s.1 tr r w')
      (hQ : Q s.1 ref.runId tr) : Manages Q s (w', s.2 ++ tr.map (.worker n, ·))
  | softDelete {s : State Operator} {n : ℕ} {id : Str} {w' : World}
      {tr : List (Step Call Ans Fate World)}
      {r : Except PyExc Unit}
      (h : Exec (Serves fun _ _ => True) (request (.deleteRun id)) s.1 tr r w') :
      Manages Q s (w', s.2 ++ tr.map (.worker n, ·))
  | sweep {s : State Operator} {n : ℕ} {j : Janitor} {w' : World}
      {tr : List (Step Call Ans Fate World)}
      {r : Except PyExc SweepReport} (h : Exec (Serves Honest) (j.sweep true) s.1 tr r w') :
      Manages Q s (w', s.2 ++ tr.map (.collector n, ·))

section Change

/-- Of every run the record is kept, or it is marked as deleted. -/
def KeepsOrDeletes (w w' : World) : Prop :=
  ∀ id, w'.mlflow.runs id = w.mlflow.runs id ∨
    w'.mlflow.runs id = (w.mlflow.runs id).map Run.setDeleted

theorem KeepsOrDeletes.refl (w : World) : KeepsOrDeletes w w := fun _ => .inl rfl

theorem KeepsOrDeletes.back {run' : Run} (h : KeepsOrDeletes w w')
    (hr : w'.mlflow.runs id = some run') :
    ∃ run, w.mlflow.runs id = some run ∧ (run' = run ∨ run' = run.setDeleted) := by
  rcases h id with h | h
  · exact ⟨run', h.symm.trans hr, .inl rfl⟩
  · obtain ⟨run, hrun, rfl⟩ := Option.map_eq_some_iff.1 (h.symm.trans hr)
    exact ⟨run, hrun, .inr rfl⟩

theorem KeepsOrDeletes.forth {run : Run} (h : KeepsOrDeletes w w')
    (hr : w.mlflow.runs id = some run) :
    ∃ run', w'.mlflow.runs id = some run' ∧ (run' = run ∨ run' = run.setDeleted) := by
  rcases h id with h | h
  · exact ⟨run, h.trans hr, .inl rfl⟩
  · exact ⟨run.setDeleted, by rw [h, hr]; rfl, .inr rfl⟩

theorem KeepsOrDeletes.usable (h : KeepsOrDeletes w w') (hu : Usable id w') : Usable id w := by
  obtain ⟨run', hr', hst, hl⟩ := hu
  obtain ⟨run, hr, rfl | rfl⟩ := h.back hr'
  · exact ⟨run', hr, hst, hl⟩
  · cases hl

theorem KeepsOrDeletes.dead (h : KeepsOrDeletes w w') (hd : Dead id w) : Dead id w' := by
  obtain ⟨run, hr, hd⟩ := hd
  obtain ⟨run', hr', rfl | rfl⟩ := h.forth hr
  · exact ⟨run', hr', hd⟩
  · exact ⟨run.setDeleted, hr', disposition_orphan_iff.2 (.inl rfl)⟩

/-- An operation that creates and uploads nothing keeps the platform consistent, when the objects it
leaves belong to runs and those it removes belong to runs that are not usable any more. -/
theorem Consistent.change (hs : Consistent operators s) (hi : ¬ operators.collector i)
    (hquiet : ∀ st ∈ tr, createdId st = none ∧ uploadedKey st = none)
    (hruns : KeepsOrDeletes s.1 w')
    (hkeys : ∀ b, ∀ k ∈ w'.s3 b, k ∈ s.1.s3 b ∨
      ∃ a j id, safeId a = true ∧ runPrefix a id <+: k ∧ Creates s.2 j id)
    (hlost : ∀ b, ∀ k ∈ s.1.s3 b, k ∉ w'.s3 b → ∃ id, isRunId id = true ∧
      IsKeyOf id k ∧ ¬ Usable id w') :
    Consistent operators (w', s.2 ++ tr.map (i, ·)) := by
  -- the journal grows by steps that create and upload nothing
  have hcreates : ∀ j id, Creates (s.2 ++ tr.map (i, ·)) j id ↔ Creates s.2 j id := by
    intro j id
    constructor
    · rintro ⟨st, hst, hc⟩
      rcases List.mem_append.1 hst with hst | hst
      · exact ⟨st, hst, hc⟩
      · obtain ⟨st', hst', heq⟩ := List.mem_map.1 hst
        cases heq
        cases hc.symm.trans (hquiet st hst').1
    · rintro ⟨st, hst, hc⟩
      exact ⟨st, List.mem_append_left _ hst, hc⟩
  have huploads : ∀ j b k, Uploads (s.2 ++ tr.map (i, ·)) j b k → Uploads s.2 j b k := by
    rintro j b k ⟨st, hst, hu⟩
    rcases List.mem_append.1 hst with hst | hst
    · exact ⟨st, hst, hu⟩
    · obtain ⟨st', hst', heq⟩ := List.mem_map.1 hst
      cases heq
      cases hu.symm.trans (hquiet st hst').2
  exact {
    keys := fun b k hk => by
      rcases hkeys b k hk with hk | ⟨a, j, id, ha, hp, hc⟩
      · obtain ⟨a, j, id, ha, hp, hc⟩ := hs.keys b k hk
        exact ⟨a, j, id, ha, hp, (hcreates j id).2 hc⟩
      · exact ⟨a, j, id, ha, hp, (hcreates j id).2 hc⟩
    created := fun j id hc => by
      obtain ⟨hid, hne⟩ := hs.created j id ((hcreates j id).1 hc)
      obtain ⟨run, hr⟩ := Option.ne_none_iff_exists'.1 hne
      obtain ⟨run', hr', -⟩ := hruns.forth hr
      exact ⟨hid, by rw [hr']; simp⟩
    owner := fun j j' id hc hc' => hs.owner j j' id ((hcreates j id).1 hc) ((hcreates j' id).1 hc')
    uploaded := fun j id hc b k hu => hs.uploaded j id ((hcreates j id).1 hc) b k
      (huploads j b k hu)
    uri := fun j id hc run' hr' => by
      obtain ⟨run, hr, rfl | rfl⟩ := hruns.back hr'
      · exact hs.uri j id ((hcreates j id).1 hc) run' hr
      · exact hs.uri j id ((hcreates j id).1 hc) run hr
    stage := fun _ _ _ _ _ _ => trivial
    finished := fun j id hc run' hr' hst hl b k hu => by
      have hc := (hcreates j id).1 hc
      have hu := huploads j b k hu
      have hwas : k ∈ s.1.s3 b := by
        obtain ⟨run, hr, rfl | rfl⟩ := hruns.back hr'
        · exact hs.finished j id hc run' hr hst hl b k hu
        · cases hl
      by_contra hgone
      -- a key belongs to one run only, and that one is usable
      obtain ⟨id', hid', hk, hunusable⟩ := hlost b k hwas hgone
      obtain rfl := isKeyOf_unique (hs.created j id hc).1 hid' (hs.uploaded j id hc b k hu) hk
      exact hunusable ⟨run', hr', hst, hl⟩
    collected := fun j st hst hj b k hrm => by
      rcases List.mem_append.1 hst with hst | hst
      · obtain ⟨j', id, hc, hk, hd⟩ := hs.collected j st hst hj b k hrm
        exact ⟨j', id, (hcreates j' id).2 hc, hk, hruns.dead hd⟩
      · obtain ⟨st', -, heq⟩ := List.mem_map.1 hst
        cases heq
        exact absurd hj hi }

end Change

section Steps

/-- `delete_run` marks the run or does nothing, and marks it when it takes effect. -/
theorem serves_deleteRun {l : Fate} {a : Ans (.deleteRun id)}
    (h : Serves F w (.deleteRun id) l a w') :
    w'.s3 = w.s3 ∧ KeepsOrDeletes w w' ∧ ((l = .ok ∨ ∃ e, l = .lost e) → ¬ Usable id w') := by
  -- the effect is the same whether the answer arrives or not
  have hdelete : ∀ {a'}, WritesRun w id Run.setDeleted a' w' →
      w'.s3 = w.s3 ∧ KeepsOrDeletes w w' ∧ ¬ Usable id w' := by
    intro a' h
    unfold WritesRun at h
    cases hr : w.mlflow.runs id with
    | none =>
      rw [hr] at h
      obtain ⟨-, rfl⟩ := h
      refine ⟨rfl, .refl _, ?_⟩
      rintro ⟨run, hr', -⟩
      cases hr.symm.trans hr'
    | some run =>
      rw [hr] at h
      obtain ⟨-, rfl⟩ := h
      refine ⟨rfl, fun id' => ?_, ?_⟩
      · by_cases hid : id' = id
        · subst hid
          exact .inr (by rw [World.withRun_runs_self, hr]; rfl)
        · exact .inl (World.withRun_runs_ne hid)
      · rintro ⟨run', hr', -, hl⟩
        rw [World.withRun_runs_self] at hr'
        obtain rfl := Option.some.inj hr'
        cases hl
  obtain ⟨-, h⟩ := h
  cases l with
  | ok =>
    obtain ⟨hs3, hk, hu⟩ := hdelete h
    exact ⟨hs3, hk, fun _ => hu⟩
  | perKey errs => exact h.elim
  | fail e =>
    obtain ⟨-, rfl⟩ := h
    refine ⟨rfl, .refl _, ?_⟩
    rintro (h | ⟨e', h⟩)
    · cases h
    · cases h
  | lost e =>
    obtain ⟨-, a', h⟩ := h
    obtain ⟨hs3, hk, hu⟩ := hdelete h
    exact ⟨hs3, hk, fun _ => hu⟩

theorem softDelete_consistent {n : ℕ} {r : Except PyExc Unit} (hs : Consistent operators s)
    (h : Exec (Serves F) (request (.deleteRun id)) s.1 tr r w') :
    Consistent operators (w', s.2 ++ tr.map (.worker n, ·)) := by
  obtain ⟨l, hserve, rfl⟩ := exec_request.1 h
  obtain ⟨hs3, hruns, -⟩ := serves_deleteRun hserve
  have hi : ¬ operators.collector (.worker n) := by
    rintro ⟨m, hm⟩
    cases hm
  refine hs.change hi (by simp [createdId, uploadedKey]) hruns
    (fun b k hk => .inl ?_) fun b k hk hgone => ?_
  · rwa [hs3] at hk
  · rw [hs3] at hgone
    exact absurd hk hgone

/-- Where the record of a run points: nowhere, or to the run's own prefix in some bucket. -/
theorem RefersTo.place (h : RefersTo s ref) (hs : Consistent operators s) :
    isRunId ref.runId = true ∧
    (ref.artifactsUri = none ∨ ∃ uri b t, ref.artifactsUri = some uri ∧ uri ≠ [] ∧
      safeIdBody t = true ∧
      parseS3Uri uri = .ok ⟨b, runPrefix t ref.runId⟩) := by
  obtain ⟨⟨i, hc⟩, run, hr, huri⟩ := h
  have hid := (hs.created i _ hc).1
  refine ⟨hid, ?_⟩
  rw [huri]
  rcases hs.uri i _ hc run hr with hnone | ⟨b, a, ha, htag⟩
  · exact .inl hnone
  right
  obtain ⟨t, ht, hkey, hrf⟩ := uriKey_of_safeId ha hid
  have hparse := parseS3Uri_runPrefix b
    (runPrefix_isTwoField (slash_not_mem_of_safeId ha) (not_mem_of_isRunId hid))
  rw [hrf, if_neg (by simp), hkey] at hparse
  refine ⟨_, b.name, t, htag, ?_, ht, hparse⟩
  intro hnil
  rw [hnil] at htag
  cases hparse.symm.trans (congrArg parseS3Uri hnil)

theorem serves_putObject {l : Fate} {b : Str} {key : Key} {body : Bytes}
    {a : Ans (.putObject b key body)}
    (h : Serves F w (.putObject b key body) l a w') : w'.mlflow = w.mlflow ∧
      ∀ b', (∀ k ∈ w.s3 b', k ∈ w'.s3 b') ∧ ∀ k ∈ w'.s3 b', k ∈ w.s3 b' ∨ k = key := by
  rcases h.effect with rfl | ⟨a', -, t, rfl⟩ | ⟨errs, h⟩
  · exact ⟨rfl, fun b' => ⟨fun k hk => hk, fun k hk => .inl hk⟩⟩
  · refine ⟨rfl, fun b' => ⟨fun k hk => World.mem_setBucket_put.2 (.inl hk), fun k hk => ?_⟩⟩
    exact (World.mem_setBucket_put.1 hk).imp_right And.right
  · exact h.elim

theorem hold_consistent {n : ℕ} {r : Except PyExc Key} (hs : Consistent operators s)
    (href : RefersTo s ref)
    (h : Exec (Serves F) (hold ref) s.1 tr r w') :
    Consistent operators (w', s.2 ++ tr.map (.worker n, ·)) := by
  have hi : ¬ operators.collector (.worker n) := by
    rintro ⟨m, hm⟩
    cases hm
  obtain ⟨hid, hnone | ⟨uri, b, t, huri, hne, ht, hparse⟩⟩ := href.place hs
  · have hraise : hold ref = raise (.noArtifactsUri ref.runId) := by rw [hold, hnone]
    rw [hraise] at h
    obtain ⟨rfl, rfl, rfl⟩ := h
    exact hs.change hi (by simp) (.refl _) (fun b k hk => .inl hk) fun b k hk hgone =>
      absurd hk hgone
  have hput : hold ref =
      (request (.putObject b (runPrefix t ref.runId ++ retentionMarker) [])).bind fun _ =>
      ret (runPrefix t ref.runId ++ retentionMarker) := by
    simp only [hold, huri, if_neg hne, writeRetentionMarker, markerKey_of_parse hid hparse,
      ofExcept_ok, bind_eq,
      ret_bind, pure_eq]
  obtain ⟨i, hc⟩ := href.created
  have hdone : ∀ {l a},
      Serves F s.1 (.putObject b (runPrefix t ref.runId ++ retentionMarker) []) l a w' →
      Consistent operators (w', s.2 ++ [(.worker n, ⟨_, l, a, w'⟩)]) := by
    intro l a hserve
    obtain ⟨hml, hs3⟩ := serves_putObject hserve
    show Consistent operators
      (w', s.2 ++ [(⟨_, l, a, w'⟩ : Step Call Ans Fate World)].map (.worker n, ·))
    refine hs.change hi (by simp [createdId, uploadedKey]) (fun id => .inl (by rw [hml]))
      (fun b' k hk => ?_) fun b' k hk hgone => absurd ((hs3 b').1 k hk) hgone
    rcases (hs3 b').2 k hk with hk | rfl
    · exact .inl hk
    · exact .inr ⟨t, i, ref.runId, safeId_iff.2 (.inl ht), List.prefix_append _ _, hc⟩
  rw [hput] at h
  rcases exec_bind.1 h with ⟨e, he, -⟩ | ⟨u, tr₁, tr₂, w₁, h₁, ⟨rfl, -, rfl⟩, rfl⟩
  · obtain ⟨l, hserve, rfl⟩ := exec_request.1 he
    exact hdone hserve
  · obtain ⟨l, hserve, rfl⟩ := exec_request.1 h₁
    exact hdone hserve

theorem exec_deleteRun_step {r : Except PyExc Unit} (h : Exec (Serves F) (deleteRun id) w tr r w') :
    ∃ l a, Serves F w (.deleteRun id) l a w' ∧ tr = [⟨.deleteRun id, l, a, w'⟩] := by
  unfold deleteRun at h
  obtain ⟨out, tr₁, tr₂, w₁, h₁, h₂, rfl⟩ := exec_attempt_bind.1 h
  obtain ⟨l, hserve, rfl⟩ := exec_request.1 h₁
  have hend : tr₂ = [] ∧ w' = w₁ := by
    cases out with
    | ok u => exact ⟨h₂.1, h₂.2.2⟩
    | error e =>
      simp only at h₂
      split_ifs at h₂
      · exact ⟨h₂.1, h₂.2.2⟩
      · exact ⟨h₂.1, h₂.2.2⟩
  obtain ⟨rfl, rfl⟩ := hend
  exact ⟨l, out, hserve, rfl⟩

/-- The two parts of a purge; the second is not reached when the first fails. -/
structure PurgeParts (F : Call → Fate → Prop) (ref : RunRef) (w w₁ w' : World)
    (tr₁ tr₂ : List (Step Call Ans Fate World)) : Prop where
  objects : (tr₁ = [] ∧ w₁ = w) ∨
    ∃ uri r₁, ref.artifactsUri = some uri ∧ Exec (Serves F) (deletePrefix uri) w tr₁ r₁ w₁
  run : (tr₂ = [] ∧ w' = w₁) ∨
    ∃ l a, Serves F w₁ (.deleteRun ref.runId) l a w' ∧ tr₂ = [⟨.deleteRun ref.runId, l, a, w'⟩]

theorem exec_purge_parts {r : Except PyExc ℕ} (h : Exec (Serves F) (purge ref true) w tr r w') :
    ∃ w₁ tr₁ tr₂, tr = tr₁ ++ tr₂ ∧ PurgeParts F ref w w₁ w' tr₁ tr₂ := by
  have hrest : ∀ {deleted : ℕ} {tr₂ w₁},
      Exec (Serves F) ((deleteRun ref.runId).bind fun _ => ret deleted) w₁ tr₂ r w' →
      ∃ l a, Serves F w₁ (.deleteRun ref.runId) l a w' ∧
        tr₂ = [⟨.deleteRun ref.runId, l, a, w'⟩] := by
    intro deleted tr₂ w₁ h
    rcases exec_bind.1 h with ⟨e, he, -⟩ | ⟨u, tr₁, tr₃, w₂, h₁, ⟨rfl, -, rfl⟩, rfl⟩
    · exact exec_deleteRun_step he
    · rw [List.append_nil]
      exact exec_deleteRun_step h₁
  have hnothing :
      ∀ {deleted : ℕ}, Exec (Serves F) ((deleteRun ref.runId).bind fun _ => ret deleted) w tr r w' →
      ∃ w₁ tr₁ tr₂, tr = tr₁ ++ tr₂ ∧ PurgeParts F ref w w₁ w' tr₁ tr₂ :=
    fun h => ⟨w, [], tr, rfl, .inl ⟨rfl, rfl⟩, .inr (hrest h)⟩
  unfold purge at h
  rcases Option.eq_none_or_eq_some ref.artifactsUri with huri | ⟨uri, huri⟩
  · rw [huri] at h
    exact hnothing h
  rw [huri] at h
  by_cases hne : uri = []
  · simp only [if_pos hne] at h
    exact hnothing h
  · simp only [if_neg hne] at h
    rcases exec_bind.1 h with ⟨e, he, rfl⟩ | ⟨deleted, tr₁, tr₂, w₁, h₁, h₂, rfl⟩
    · exact ⟨w', tr, [], (List.append_nil tr).symm, .inr ⟨uri, _, huri, he⟩, .inl ⟨rfl, rfl⟩⟩
    · exact ⟨w₁, tr₁, tr₂, rfl, .inr ⟨uri, _, huri, h₁⟩, .inr (hrest h₂)⟩

/-- The first part removes objects of the run alone. -/
theorem PurgeParts.removes {w₁ : World} {tr₁ tr₂ : List (Step Call Ans Fate World)}
    (h : PurgeParts F ref w w₁ w' tr₁ tr₂)
    (hplace : ref.artifactsUri = none ∨ ∃ uri b t, ref.artifactsUri = some uri ∧ uri ≠ [] ∧
      safeIdBody t = true ∧
      parseS3Uri uri = .ok ⟨b, runPrefix t ref.runId⟩) :
    w₁.mlflow = w.mlflow ∧ (∀ st ∈ tr₁, DeleteCall st.call) ∧ ∀ b, (∀ k ∈ w₁.s3 b, k ∈ w.s3 b) ∧
      ∀ k ∈ w.s3 b, k ∉ w₁.s3 b → IsKeyOf ref.runId k ∧ ∃ st ∈ tr₁, Removes b k st := by
  rcases h.objects with ⟨rfl, rfl⟩ | ⟨uri, r, huri, hexec⟩
  · exact ⟨rfl, by simp, fun b => ⟨fun k hk => hk, fun k hk hgone => absurd hk hgone⟩⟩
  rcases hplace with hnone | ⟨uri', b, t, huri', -, ht, hparse⟩
  · cases hnone.symm.trans huri
  obtain rfl := Option.some.inj (huri'.symm.trans huri)
  obtain ⟨hers, hbelow⟩ := exec_deletePrefix_erases hparse hexec
  refine ⟨hers.mlflow, (uses_deletePrefix uri').calls hexec, fun b' => ?_⟩
  by_cases hb : b' = b
  · subst hb
    refine ⟨fun k hk => ?_, fun k hk hgone => ?_⟩
    · obtain ⟨v, hv⟩ := SortedMap.mem_def.1 hk
      exact SortedMap.mem_of_entry ((hers.entries _).1 hv).1
    · obtain ⟨v, hv⟩ := SortedMap.mem_def.1 hk
      have hrem : ∃ st ∈ tr₁, Removes b' k st := by
        by_contra hno
        exact hgone (SortedMap.mem_of_entry ((hers.entries (k, v)).2 ⟨hv, hno⟩))
      obtain ⟨st, hst, hrm⟩ := hrem
      exact ⟨⟨t, slash_not_mem_of_plain (plain_of_safeIdBody ht).2, hbelow st hst k hrm⟩, st, hst,
        hrm⟩
  · rw [hers.others b' hb]
    exact ⟨fun k hk => hk, fun k hk hgone => absurd hk hgone⟩

/-- A purge that is carried through leaves no usable run without its objects. -/
theorem purge_consistent {n : ℕ} {r : Except PyExc ℕ} (hs : Consistent operators s)
    (href : RefersTo s ref)
    (h : Exec (Serves F) (purge ref true) s.1 tr r w') (hdone : CarriedThrough s.1 ref.runId tr) :
    Consistent operators (w', s.2 ++ tr.map (.worker n, ·)) := by
  have hi : ¬ operators.collector (.worker n) := by
    rintro ⟨m, hm⟩
    cases hm
  obtain ⟨hid, hplace⟩ := href.place hs
  obtain ⟨w₁, tr₁, tr₂, rfl, hparts⟩ := exec_purge_parts h
  obtain ⟨hml, hcalls, hobjects⟩ := hparts.removes hplace
  have hrun : w'.s3 = w₁.s3 ∧ KeepsOrDeletes w₁ w' ∧
      (SoftDeleted ref.runId tr₂ → ¬ Usable ref.runId w') ∧
      ∀ st ∈ tr₂, ∃ l a, st = ⟨.deleteRun ref.runId, l, a, w'⟩ := by
    rcases hparts.run with ⟨rfl, rfl⟩ | ⟨l, a, hserve, rfl⟩
    · refine ⟨rfl, .refl _, ?_, by simp⟩
      rintro ⟨st, hst, -⟩
      cases hst
    · obtain ⟨hs3, hruns, hgone⟩ := serves_deleteRun hserve
      refine ⟨hs3, hruns, ?_, fun st hst => ⟨l, a, List.mem_singleton.1 hst⟩⟩
      rintro ⟨st, hst, -, hl⟩
      rw [List.mem_singleton.1 hst] at hl
      exact hgone hl
  obtain ⟨hs3, hruns, hdeleted, hcalls'⟩ := hrun
  have hruns : KeepsOrDeletes s.1 w' := by
    unfold KeepsOrDeletes
    rw [← hml]
    exact hruns
  refine hs.change hi (fun st hst => ?_) hruns (fun b k hk => .inl ?_) fun b k hk hgone => ?_
  · rcases List.mem_append.1 hst with hst | hst
    · obtain ⟨c, l, a, w⟩ := st
      have hc : DeleteCall c := hcalls _ hst
      cases c <;> first | exact ⟨rfl, rfl⟩ | exact hc.elim
    · obtain ⟨l, a, rfl⟩ := hcalls' st hst
      exact ⟨rfl, rfl⟩
  · rw [hs3] at hk
    exact (hobjects b).1 k hk
  · rw [hs3] at hgone
    obtain ⟨hkey, st, hst, hrm⟩ := (hobjects b).2 k hk hgone
    refine ⟨ref.runId, hid, hkey, fun hu => ?_⟩
    -- the run was usable, so what was removed had it deleted, and by the second part
    obtain ⟨st', hst', hc, hl⟩ :=
      hdone (hruns.usable hu) ⟨st, List.mem_append_left _ hst, b, k, hrm⟩
    rcases List.mem_append.1 hst' with hst' | hst'
    · have hcall := hcalls st' hst'
      rw [hc] at hcall
      exact hcall
    · exact hdeleted ⟨st', hst', hc, hl⟩ hu

end Steps

section Runs
variable {Q : World → Str → List (Step Call Ans Fate World) → Prop}

theorem contract_keeps (i : Operator) (s : State Operator) (c : Call) (a : Ans c)
    (s' : State Operator)
    (_ : (contract operators i).inv s) (h : (contract operators i).guar s c a s') :
    (contract operators i).inv s' := h.1

theorem log_consistent {n : ℕ} {store : Store} {fs : LocalFs} {args : LogArgs}
    {r : Except PyExc Str}
    (hs : Consistent operators s) (hnew : ∀ st, (.worker n, st) ∉ s.2)
    (h : Exec (Serves Lossless) (log store fs args) s.1 tr r w') :
    Consistent operators (w', s.2 ++ tr.map (.worker n, ·)) := by
  have hi : ¬ operators.collector (.worker n) := by
    rintro ⟨m, hm⟩
    cases hm
  have hidle : Idle (.worker n) s := by
    constructor
    · rintro id ⟨st, hst, -⟩
      exact hnew st hst
    · rintro b k ⟨st, hst, -⟩
      exact hnew st hst
  obtain ⟨tr', hexec⟩ := exec_journaled (.worker n) h s.2
  exact ((safe_log hi hidle).exec (contract_keeps _) hs hexec).1

theorem sweep_consistent {n : ℕ} {j : Janitor} {r : Except PyExc SweepReport}
    (hs : Consistent operators s)
    (h : Exec (Serves Honest) (j.sweep true) s.1 tr r w') :
    Consistent operators (w', s.2 ++ tr.map (.collector n, ·)) := by
  have hi : operators.collector (.collector n) := ⟨n, rfl⟩
  obtain ⟨tr', hexec⟩ := exec_journaled (.collector n) h s.2
  exact (((sweepRule_collector hi j).safe_sweep true).exec (contract_keeps _) hs hexec).1

/-- Every operation keeps the platform consistent, a purge if it is carried through. -/
theorem Manages.consistent (h : Manages CarriedThrough s s') (hs : Consistent operators s) :
    Consistent operators s' := by
  cases h with
  | log hnew h => exact log_consistent hs hnew h
  | hold href h => exact hold_consistent hs href h
  | purge href h hdone => exact purge_consistent hs href h hdone
  | softDelete h => exact softDelete_consistent hs h
  | sweep h => exact sweep_consistent hs h

theorem managed_consistent {w₀ : World} (hempty : ∀ b, w₀.s3 b = .empty)
    (h : Relation.ReflTransGen (Manages CarriedThrough) (w₀, []) s) : Consistent operators s := by
  induction h with
  | refl => exact consistent_start hempty
  | tail _ hstep ih => exact hstep.consistent ih

theorem resolve_usable {x : Str} {by_ : By} {refs : List RunRef}
    (h : Exec (Serves Reliable) (resolve x by_ false) w tr (.ok refs) w') :
    ∀ ref ∈ refs, Usable ref.runId w := by
  have husable : ∀ {id run}, w.mlflow.runs id = some run → isUsable (toRef (id, run)) = true →
      Usable id w := by
    intro id run hr hu
    have hboth : run.status = some .finished ∧ run.lifecycleStage = .active := by
      simpa [isUsable_toRef, isUsableRun] using hu
    exact ⟨run, hr, hboth⟩
  cases by_ with
  | alias_ =>
    cases hexp : w.mlflow.experiments x with
    | none => cases (exec_resolve_unknown hexp h).1
    | some expId =>
      obtain ⟨runs, hperm, hr, -⟩ := exec_resolve_alias hexp h
      obtain rfl := Except.ok.inj hr
      intro ref href
      obtain ⟨hin, hu⟩ := mem_kept.1 href
      obtain ⟨⟨id, run⟩, hm, rfl⟩ := List.mem_map.1 (hperm.mem_iff.1 hin)
      exact husable (mem_matching.1 hm).2.1 (hu.resolve_left Bool.false_ne_true)
  | id =>
    cases hrun : w.mlflow.runs x with
    | none =>
      obtain ⟨ref, tr₁, tr₂, w₁, h₁, -, -⟩ := exec_bind_ok.1 h
      obtain ⟨l, a, w₂, tr₃, ⟨hl, hs⟩, -, hend⟩ := h₁
      obtain rfl : l = .ok := hl
      obtain ⟨-, ha⟩ := hs
      rw [hrun] at ha
      obtain rfl := ha
      obtain ⟨-, hr, -⟩ := hend
      cases hr
    | some run =>
      obtain ⟨hr, -⟩ := exec_resolve_id hrun h
      obtain rfl := Except.ok.inj hr
      intro ref href
      obtain ⟨hin, hu⟩ := mem_kept.1 href
      obtain rfl := List.mem_singleton.1 hin
      exact husable hrun (hu.resolve_left Bool.false_ne_true)
  | other text =>
    obtain ⟨-, hr, -⟩ := h
    cases hr

/-- After any history in which every purge of a usable run that deletes objects gets the run deleted
too, each run that `resolve` returns has in the bucket every object that its `log` uploaded. -/
theorem usable_have_artifacts {w₀ : World} (hempty : ∀ b, w₀.s3 b = .empty)
    (h : Relation.ReflTransGen (Manages CarriedThrough) (w₀, []) s) {x : Str} {by_ : By}
    {refs : List RunRef}
    (hlook : Exec (Serves Reliable) (resolve x by_ false) s.1 tr (.ok refs) w') :
    ∀ ref ∈ refs, ∀ i, Creates s.2 i ref.runId → ∀ b k, Uploads s.2 i b k → k ∈ s.1.s3 b := by
  have hs : Consistent operators s := managed_consistent hempty h
  intro ref href i hc b k hu
  obtain ⟨run, hr, hst, hl⟩ := resolve_usable hlook ref href
  exact hs.finished i ref.runId hc run hr hst hl b k hu

end Runs

section Sample

abbrev sampleLog : Action Str := log sampleStore sampleFs sampleArgs

/-- An operation that is served throughout. -/
def served {α : Type} (i : Operator) (p : Action α) (s : State Operator) : State Operator :=
  ((simulate (fun _ => .ok) p s.1).2.2, s.2 ++ (simulate (fun _ => .ok) p s.1).1.map (i, ·))

theorem exec_served {α : Type} {F : Call → Fate → Prop} (i : Operator) (p : Action α)
    (s : State Operator) (hF : ∀ w c, F c (serve (fun _ => .ok) w c).1) :
    Exec (Serves F) p s.1 (simulate (fun _ => .ok) p s.1).1 (simulate (fun _ => .ok) p s.1).2.1
      (served i p s).1 :=
  exec_simulate p s.1 hF

theorem not_mem_served {α : Type} {j : Operator} {p : Action α} {st : Step Call Ans Fate World}
    (hij : j ≠ i) (h : (j, st) ∉ s.2) : (j, st) ∉ (served i p s).2 := by
  simpa [served, hij.symm] using h

theorem mem_served {α : Type} {p : Action α} {e : Operator × Step Call Ans Fate World}
    (h : e ∈ s.2) : e ∈ (served i p s).2 := List.mem_append_left _ h

def afterLog : State Operator := served (.worker 0) sampleLog (noRuns, [])

section Served

variable {Q : World → Str → List (Step Call Ans Fate World) → Prop} {n : ℕ}

theorem manages_served_log (hnew : ∀ st, (.worker n, st) ∉ s.2) :
    Manages Q s (served (.worker n) sampleLog s) :=
  .log hnew (exec_served (.worker n) _ _ (lossless_serve (fun _ => .ok) fun _ _ => by simp))

theorem manages_served_hold (href : RefersTo s ref) :
    Manages Q s (served (.worker n) (hold ref) s) :=
  .hold href (exec_served (.worker n) _ _ fun _ _ => trivial)

theorem manages_served_purge (href : RefersTo s ref)
    (hQ : Q s.1 ref.runId (simulate (fun _ => .ok) (purge ref true) s.1).1) :
    Manages Q s (served (.worker n) (purge ref true) s) :=
  .purge href (exec_served (.worker n) _ _ fun _ _ => trivial) hQ

theorem manages_served_deletion :
    Manages Q s (served (.worker n) (request (.deleteRun id)) s) :=
  .softDelete (exec_served (.worker n) _ _ fun _ _ => trivial)

theorem manages_served_sweep {j : Janitor} :
    Manages Q s (served (.collector n) (j.sweep true) s) :=
  .sweep (exec_served (.collector n) _ _ honest_serve)

end Served

theorem manages_afterLog {Q : World → Str → List (Step Call Ans Fate World) → Prop} :
    Manages Q (noRuns, []) afterLog := manages_served_log fun _ => List.not_mem_nil

theorem exec_sampleLog :
    Exec (Serves Lossless) sampleLog noRuns (simulate (fun _ => .ok) sampleLog noRuns).1
    (simulate (fun _ => .ok) sampleLog noRuns).2.1 afterLog.1 :=
  exec_served (.worker 0) sampleLog (noRuns, []) (lossless_serve (fun _ => .ok) fun _ _ => by simp)

theorem afterLog_journal : Creates afterLog.2 (.worker 0) (sampleRunId '0') ∧
    Uploads afterLog.2 (.worker 0) ['b'] sampleArtifact := by
  have hcreate : ((simulate (fun _ => .ok) sampleLog noRuns).1.any fun st =>
      createdId st = some (sampleRunId '0')) = true := by decide +kernel
  have hupload : ((simulate (fun _ => .ok) sampleLog noRuns).1.any fun st =>
      uploadedKey st = some (['b'], sampleArtifact)) = true := by decide +kernel
  simp only [List.any_eq_true, decide_eq_true_eq] at hcreate hupload
  obtain ⟨st, hst, hc⟩ := hcreate
  obtain ⟨st', hst', hu⟩ := hupload
  exact ⟨⟨st, List.mem_map_of_mem hst, hc⟩, ⟨st', List.mem_map_of_mem hst', hu⟩⟩

/-- The lookup by id returns a usable run. -/
theorem exec_resolve_of_usable (h : Usable id w) : ∃ tr ref w',
    Exec (Serves Reliable) (resolve id .id false) w tr (.ok [ref]) w' ∧ ref.runId = id := by
  obtain ⟨run, hr, hst, hl⟩ := h
  obtain ⟨tr, r, w', hexec⟩ := exec_exists (uses_resolve id .id false) reliable_lookupCall w
  have hu : isUsable (toRef (id, run)) = true := by simp [isUsable_toRef, isUsableRun, hst, hl]
  obtain ⟨rfl, rfl⟩ := exec_resolve_id hr hexec
  have hkept : kept false [toRef (id, run)] = [toRef (id, run)] := by simp [kept, hu]
  rw [hkept] at hexec
  exact ⟨tr, toRef (id, run), w', hexec, rfl⟩

theorem usable_of_any (h : ((w.mlflow.runs id).any fun run =>
    run.status = some .finished ∧ run.lifecycleStage = .active) = true) : Usable id w := by
  simp only [Option.any_eq_true, decide_eq_true_eq] at h
  exact h

/-- The record of a run, as far as a hold and a purge look at it. -/
def refOf (c : Char) : RunRef where
  runId := sampleRunId c
  status := some .finished
  aliasName := some ['a']
  chip := none
  region := none
  workloadId := none
  artifactsUri := some (artifactsUri ['b'] ['a'] (sampleRunId c))
  startTime := none
  lifecycleStage := .active
  metrics := fun _ => none
  params := fun _ => none
  tags := fun _ => none

theorem refersTo_of_any {s : State Operator} {ref : RunRef}
    (hc : (s.2.any fun e => createdId e.2 = some ref.runId) = true)
    (hu : ((s.1.mlflow.runs ref.runId).any fun run =>
      run.tags artifactsUriTag = ref.artifactsUri) = true) : RefersTo s ref := by
  simp only [List.any_eq_true, Option.any_eq_true, decide_eq_true_eq] at hc hu
  obtain ⟨⟨i, st⟩, hst, hc⟩ := hc
  obtain ⟨run, hr, htag⟩ := hu
  exact ⟨⟨i, st, hst, hc⟩, run, hr, htag.symm⟩

/-- A deletion that the server carries out and answers. -/
def answersDeletion (id : Str) : Step Call Ans Fate World → Bool
  | ⟨.deleteRun id', .ok, _, _⟩ => id' = id
  | _ => false

/-- A purge that MLflow serves is carried through. -/
theorem carriedThrough_of_any {id : Str} (h : tr.any (answersDeletion id) = true) :
    CarriedThrough w id tr := by
  intro _ _
  obtain ⟨⟨c, l, a, w'⟩, hst, hc⟩ := List.any_eq_true.1 h
  cases c with
  | deleteRun id' =>
    cases l with
    | ok => exact ⟨_, hst, congrArg Call.deleteRun (of_decide_eq_true hc), .inl rfl⟩
    | _ => cases hc
  | _ => cases hc

def threeLogged : State Operator :=
  served (.worker 2) sampleLog (served (.worker 1) sampleLog afterLog)

def firstHeld : State Operator := served (.worker 3) (hold (refOf '0')) threeLogged

def secondPurged : State Operator := served (.worker 4) (purge (refOf '1') true) firstHeld

def thirdDeleted : State Operator :=
  served (.worker 5) (request (.deleteRun (sampleRunId '2'))) secondPurged

def afterSweep : State Operator := served (.collector 0) (sampleJanitor.sweep true) thirdDeleted

theorem manages_threeLogged {Q : World → Str → List (Step Call Ans Fate World) → Prop} :
    Relation.ReflTransGen (Manages Q) (noRuns, []) threeLogged := by
  have hnew₁ : ∀ st, (.worker 1, st) ∉ afterLog.2 :=
    fun _ => not_mem_served nofun List.not_mem_nil
  have hnew₂ : ∀ st, (.worker 2, st) ∉ (served (.worker 1) sampleLog afterLog).2 :=
    fun st => not_mem_served nofun (not_mem_served nofun List.not_mem_nil)
  have h₁ : Relation.ReflTransGen (Manages Q) (noRuns, []) afterLog := .single manages_afterLog
  have h₂ := h₁.tail (manages_served_log hnew₁)
  exact h₂.tail (manages_served_log hnew₂)

theorem manages_afterSweep :
    Relation.ReflTransGen (Manages CarriedThrough) (noRuns, []) afterSweep := by
  have hheld : RefersTo threeLogged (refOf '0') :=
    refersTo_of_any (by decide +kernel) (by decide +kernel)
  have hpurged : RefersTo firstHeld (refOf '1') :=
    refersTo_of_any (by decide +kernel) (by decide +kernel)
  have hthrough : CarriedThrough firstHeld.1 (refOf '1').runId
      (simulate (fun _ => .ok) (purge (refOf '1') true) firstHeld.1).1 :=
    carriedThrough_of_any (by decide +kernel)
  have h₁ : Manages CarriedThrough threeLogged firstHeld := manages_served_hold hheld
  have h₂ : Manages CarriedThrough firstHeld secondPurged := manages_served_purge hpurged hthrough
  have h₃ : Manages CarriedThrough secondPurged thirdDeleted := manages_served_deletion
  have h₄ : Manages CarriedThrough thirdDeleted afterSweep := manages_served_sweep
  exact (((manages_threeLogged.tail h₁).tail h₂).tail h₃).tail h₄

/-- The held run keeps its artifact; the purged and the soft-deleted one have lost theirs. -/
theorem usable_have_artifacts_sample :
    Relation.ReflTransGen (Manages CarriedThrough) (noRuns, []) afterSweep ∧
    Usable (sampleRunId '0') afterSweep.1 ∧ sampleArtifact ∈ afterSweep.1.s3 ['b'] ∧
    sampleRunPrefix '1' ++ ['t'] ∉ afterSweep.1.s3 ['b'] ∧
    sampleRunPrefix '2' ++ ['t'] ∉ afterSweep.1.s3 ['b'] := by
  have husable : Usable (sampleRunId '0') afterSweep.1 := usable_of_any (by decide +kernel)
  have hjournal : ∀ e ∈ afterLog.2, e ∈ afterSweep.2 := fun e he =>
    mem_served (mem_served (mem_served (mem_served (mem_served (mem_served he)))))
  obtain ⟨⟨st, hst, hc⟩, ⟨st', hst', hu⟩⟩ := afterLog_journal
  have hcreates : Creates afterSweep.2 (.worker 0) (sampleRunId '0') := ⟨st, hjournal _ hst, hc⟩
  have huploads : Uploads afterSweep.2 (.worker 0) ['b'] sampleArtifact :=
    ⟨st', hjournal _ hst', hu⟩
  obtain ⟨tr, ref, w', hexec, hid⟩ := exec_resolve_of_usable husable
  refine ⟨manages_afterSweep, husable, ?_, by decide +kernel, by decide +kernel⟩
  exact usable_have_artifacts noRuns_s3 manages_afterSweep hexec ref (by simp) (.worker 0)
    (hid ▸ hcreates) _ _ huploads

def loggedRef : RunRef := refOf '0'

def refuseDeletion : Call → Fate
  | .deleteRun _ => .fail unavailable
  | _ => .ok

def afterPurge : State Operator :=
  ((simulate refuseDeletion (purge loggedRef true) afterLog.1).2.2,
    afterLog.2 ++ (simulate refuseDeletion (purge loggedRef true) afterLog.1).1.map (.worker 1, ·))

theorem exec_samplePurge : Exec (Serves fun _ _ => True) (purge loggedRef true) afterLog.1
    (simulate refuseDeletion (purge loggedRef true) afterLog.1).1
    (simulate refuseDeletion (purge loggedRef true) afterLog.1).2.1 afterPurge.1 :=
  exec_simulate (purge loggedRef true) afterLog.1 fun _ _ => trivial

/-- A purge whose last call fails has deleted the objects of a run that consumers still get. -/
theorem purge_strands_run : ∃ s : State Operator,
    Relation.ReflTransGen (Manages fun _ _ _ => True) (noRuns, []) s ∧
    ∃ tr ref w',
      Exec (Serves Reliable) (resolve (sampleRunId '0') .id false) s.1 tr (.ok [ref]) w' ∧
      Creates s.2 (.worker 0) ref.runId ∧ Uploads s.2 (.worker 0) ['b'] sampleArtifact ∧
      sampleArtifact ∉ s.1.s3 ['b'] := by
  obtain ⟨⟨st, hst, hc⟩, ⟨st', hst', hu⟩⟩ := afterLog_journal
  have huri : ((afterLog.1.mlflow.runs (sampleRunId '0')).any fun run =>
      run.tags artifactsUriTag = loggedRef.artifactsUri) = true := by decide +kernel
  simp only [Option.any_eq_true, decide_eq_true_eq] at huri
  obtain ⟨run, hr, htag⟩ := huri
  have href : RefersTo afterLog loggedRef := ⟨⟨_, st, hst, hc⟩, run, hr, htag.symm⟩
  have hreach : Relation.ReflTransGen (Manages fun _ _ _ => True) (noRuns, []) afterPurge :=
    .tail (.single manages_afterLog) (.purge href exec_samplePurge trivial)
  have husable : Usable (sampleRunId '0') afterPurge.1 := usable_of_any (by decide +kernel)
  have hgone : sampleArtifact ∉ afterPurge.1.s3 ['b'] := by decide +kernel
  obtain ⟨tr, ref, w', hexec, hid⟩ := exec_resolve_of_usable husable
  refine ⟨afterPurge, hreach, tr, ref, w', hexec, ?_, ?_, hgone⟩
  · exact ⟨st, List.mem_append_left _ hst, hid ▸ hc⟩
  · exact ⟨st', List.mem_append_left _ hst', hu⟩

end Sample

end Accel.Model
