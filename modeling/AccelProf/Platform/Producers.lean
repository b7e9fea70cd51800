import AccelProf.Platform.Turns

/-! `log` among other threads: a producer keeps its contract at every point. -/

namespace Accel.Model
open Data Program Prog

variable {ι : Type} {P : Parties ι} {i : ι} {s s' : State ι} {l : Fate} {id uri : Str} {run : Run}
  {store : Store} {fs : LocalFs} {args : LogArgs}

/-- The thread has not created a run yet. -/
structure Idle (i : ι) (s : State ι) : Prop where
  creates : ∀ id, ¬ Creates s.2 i id
  uploads : ∀ b k, ¬ Uploads s.2 i b k

/-- The thread has created one run, which is still running. -/
structure Owning (i : ι) (id : Str) (s : State ι) : Prop where
  created : Creates s.2 i id
  only : ∀ id', Creates s.2 i id' → id' = id
  running : ∃ run, s.1.mlflow.runs id = some run ∧ run.status = some .running

/-- And unless somebody deleted the run, all that the thread uploaded is there. -/
structure Producing (i : ι) (id : Str) (s : State ι) : Prop extends Owning i id s where
  present : ∀ b k, Uploads s.2 i b k → ¬ Dead id s.1 → k ∈ s.1.s3 b

theorem stable_idle (hi : ¬ P.collector i) : Stable (contract P i) (Idle i) := by
  intro s s' h _ hr
  have ho := hr.2 hi
  exact ⟨fun id hc => h.creates id (ho.creates_iff.1 hc),
    fun b k hu => h.uploads b k (ho.uploads_iff.1 hu)⟩

theorem stable_owning (hi : ¬ P.collector i) : Stable (contract P i) (Owning i id) := by
  intro s s' h _ hr
  have ho := hr.2 hi
  refine ⟨ho.creates_iff.2 h.created, fun id' hc => h.only id' (ho.creates_iff.1 hc), ?_⟩
  obtain ⟨run, hrun, hst⟩ := h.running
  obtain ⟨run', hrun', hst'⟩ := ho.status id h.created run hrun
  exact ⟨run', hrun', hst'.trans hst⟩

theorem stable_producing (hi : ¬ P.collector i) : Stable (contract P i) (Producing i id) := by
  intro s s' h hs' hr
  have ho := hr.2 hi
  have hown := stable_owning hi _ _ h.toOwning hs' hr
  refine ⟨hown, fun b k hu hd => ?_⟩
  exact ho.kept id h.created b k (hs'.uploaded i id hown.created b k hu)
    (h.present b k (ho.uploads_iff.1 hu) fun hd' => hd (ho.dead id hd')) hd

theorem Idle.after {st : Step Call Ans Fate World} (h : Idle i s) (hJ : s'.2 = s.2 ++ [(i, st)])
    (hc : createdId st = none) (hu : uploadedKey st = none) : Idle i s' := by
  refine ⟨fun id h' => ?_, fun b k h' => ?_⟩
  · rw [hJ, creates_append, hc] at h'
    exact h'.elim (h.creates id) (by simp)
  · rw [hJ, uploads_append, hu] at h'
    exact h'.elim (h.uploads b k) (by simp)

theorem Owning.after {st : Step Call Ans Fate World} (h : Owning i id s)
    (hJ : s'.2 = s.2 ++ [(i, st)]) (hc : createdId st = none)
    (hrun : ∃ run, s'.1.mlflow.runs id = some run ∧ run.status = some .running) :
    Owning i id s' := by
  have hiff : ∀ id', Creates s'.2 i id' ↔ Creates s.2 i id' := fun id' => by
    rw [hJ, creates_append, hc]
    simp
  exact ⟨(hiff id).2 h.created, fun id' hc => h.only id' ((hiff id').1 hc), hrun⟩

theorem Producing.after {st : Step Call Ans Fate World} (h : Producing i id s)
    (hJ : s'.2 = s.2 ++ [(i, st)]) (hc : createdId st = none)
    (hrun : ∃ run, s'.1.mlflow.runs id = some run ∧ run.status = some .running)
    (hdead : Dead id s.1 → Dead id s'.1) (hkeep : ∀ b, ∀ k ∈ s.1.s3 b, k ∈ s'.1.s3 b)
    (hup : ∀ b k, uploadedKey st = some (b, k) → k ∈ s'.1.s3 b) : Producing i id s' := by
  refine ⟨h.toOwning.after hJ hc hrun, fun b k hu hd => ?_⟩
  rw [hJ, uploads_append] at hu
  rcases hu with hu | ⟨-, hu⟩
  · exact hkeep b k (h.present b k hu fun hd' => hd (hdead hd'))
  · exact hup b k hu

section Create

theorem lookup_creationTags (i : Identity) : (creationTags i).lookup artifactsUriTag = none := rfl

/-- A program of experiment calls leaves an idle thread idle. -/
theorem safe_experimentCalls {α : Type} {p : Action α} {aliasName : Str} (hi : ¬ P.collector i)
    (hp : p.Uses (ExperimentCall aliasName)) (h : Idle i s) :
    Safe (Journaled (Serves Lossless) i) (contract P i) (fun _ s => Idle i s) p s := by
  refine safe_of_uses hp (stable_idle hi) (fun c hc s hs h l a s' ⟨hserve, hJ⟩ => ?_) h
  have hreg := serves_experimentCall hc hserve
  have hcr : createdId ⟨c, l, a, s'.1⟩ = none := by
    cases c <;> first | rfl | exact hc.elim
  have hup : uploadedKey ⟨c, l, a, s'.1⟩ = none := by
    cases c <;> first | rfl | exact hc.elim
  have ht : Turn P i s ⟨c, l, a, s'.1⟩ s' := turn_still hJ hreg.s3 hreg.runs hcr hup
    fun b keys h => by
      subst h
      exact hc
  exact ⟨ht.guar hs, h.after hJ hcr hup⟩

theorem safe_createRun (hi : ¬ P.collector i) (h : Idle i s) :
    Safe (Journaled (Serves Lossless) i) (contract P i) (fun r s => match r with
      | .ok id => Producing i id s
      | .error _ => True) (createRun args.identity) s := by
  refine Safe.bind ((safe_experimentCalls hi (uses_experimentId _ true) h).mono ?_)
  rintro (e | expId) s₁ - h₁
  · trivial
  refine safe_perform (fun r => ?_) fun s₂ hs hr l a s₃ hserve => ?_
  · cases r with
    | ok id => exact stable_producing hi
    | error e => exact stable_true
  have h₂ := stable_idle hi _ _ h₁ hs hr
  obtain ⟨ht, hrun⟩ := turn_createRun (F := Lossless) (P := P) (fun e hF => by
    obtain ⟨_, _, _, _, _, hc⟩ := hF e rfl
    cases hc) (lookup_creationTags _) hserve h₂.uploads
  refine ⟨ht.guar hs, ?_⟩
  cases a with
  | error e => trivial
  | ok id =>
    obtain ⟨-, hrun⟩ := hrun id rfl
    have hJ := hserve.2
    refine ⟨⟨?_, fun id' hc => ?_, hrun⟩, fun b k hu => ?_⟩
    · rw [hJ, creates_append]
      exact .inr ⟨rfl, rfl⟩
    · rw [hJ, creates_append] at hc
      rcases hc with hc | ⟨-, hc⟩
      · exact absurd hc (h₂.creates id')
      · exact (Option.some.inj hc).symm
    · rw [hJ, uploads_append] at hu
      rcases hu with hu | ⟨-, hu⟩
      · exact absurd hu (h₂.uploads b k)
      · cases hu

end Create

section Body

theorem safe_uploadCalls {α : Type} {p : Action α} {a b : Str} (hi : ¬ P.collector i)
    (ha : safeId a = true) (hp : p.Uses (UploadCall b (runPrefix a id <+: ·)))
    (h : Producing i id s) :
    Safe (Journaled (Serves Lossless) i) (contract P i) (fun _ s => Producing i id s) p s := by
  refine safe_of_uses hp (stable_producing hi) (fun c hc s hs h l a s' hserve => ?_) h
  obtain ⟨run, hrun, hst⟩ := h.running
  cases c with
  | uploadFile path b' key body hex =>
    obtain ⟨rfl, hk⟩ := hc
    obtain ⟨ht, hml, hkeep⟩ := turn_upload (P := P) hserve ha hk h.created h.only
    refine ⟨ht.guar hs, h.after ht.journal rfl ⟨run, by rw [hml, hrun], hst⟩
      (fun hd => by rwa [Dead, hml]) hkeep fun b k hu => (ht.uploads b k hu).1⟩
  | headObject b' key =>
    have hw : s'.1 = s.1 := by
      rcases hserve.1.effect with h | ⟨a', h⟩ | ⟨errs, h⟩
      · exact h
      · exact h.1
      · exact h.elim
    have ht : Turn P i s ⟨.headObject b' key, l, a, s'.1⟩ s' :=
      turn_still hserve.2 (by rw [hw]) (by rw [hw]) rfl rfl (by simp)
    exact ⟨ht.guar hs, h.after ht.journal rfl ⟨run, by rw [hw, hrun], hst⟩ (fun hd => by rwa [hw])
      (fun b k hk => by rwa [hw]) fun b k hu => by cases hu⟩
  | sleep t =>
    have hw : s'.1 = s.1 := by
      rcases hserve.1.effect with h | ⟨a', h⟩ | ⟨errs, h⟩
      · exact h
      · exact h.2
      · exact h.elim
    have ht : Turn P i s ⟨.sleep t, l, a, s'.1⟩ s' :=
      turn_still hserve.2 (by rw [hw]) (by rw [hw]) rfl rfl (by simp)
    exact ⟨ht.guar hs, h.after ht.journal rfl ⟨run, by rw [hw, hrun], hst⟩ (fun hd => by rwa [hw])
      (fun b k hk => by rwa [hw]) fun b k hu => by cases hu⟩
  | _ => exact hc.elim

/-- Content calls that set `artifacts_uri` to nothing but `uri`. -/
def ContentCall (id uri : Str) : Call → Prop
  | .setTag id' k v => id' = id ∧ (k = artifactsUriTag → v = uri)
  | .logParam id' _ _ => id' = id
  | .logMetric id' _ _ => id' = id
  | _ => False

theorem uses_recordContent_uri {metrics params tags : Option PyDict}
    (h : validateContent metrics tags = .ok ()) :
    (recordContent id uri metrics params tags).Uses (ContentCall id uri) := by
  refine Uses.bind (uses_foldlM (fun _ kv hkv => ?_) ()) fun _ =>
    Uses.bind (uses_foldlM (fun _ kv _ => ?_) ()) fun _ =>
      Uses.bind (uses_foldlM (fun _ kv _ => ?_) ()) fun _ => ?_
  · refine uses_request ⟨rfl, fun hk => ?_⟩
    have hr := (validateContent_ok h).2 kv hkv
    rw [hk] at hr
    exact absurd hr (by decide)
  · exact uses_request rfl
  · exact uses_request rfl
  · exact uses_request ⟨rfl, fun _ => rfl⟩

/-- What a content call does to its run. -/
theorem serves_contentCall {F : Call → Fate → Prop} {w w' : World} {c : Call} {a : Ans c}
    (hc : ContentCall id uri c) (hrun : w.mlflow.runs id = some run) (h : Serves F w c l a w') :
    ∃ run', w' = w.withRun id run' ∧ run'.status = run.status ∧
      run'.lifecycleStage = run.lifecycleStage ∧
      (run'.tags artifactsUriTag = run.tags artifactsUriTag ∨
        run'.tags artifactsUriTag = some uri) := by
  have hset : ∀ {f : Run → Run} {a'}, WritesRun w id f a' w' → w' = w.withRun id (f run) :=
    fun h' => by
      rw [WritesRun, hrun] at h'
      exact h'.2
  rcases h.effect with rfl | ⟨a', h⟩ | ⟨errs, h⟩
  · exact ⟨run, (World.withRun_self hrun).symm, rfl, rfl, .inl rfl⟩
  · cases c with
    | setTag id' k v =>
      obtain ⟨rfl, hv⟩ := hc
      refine ⟨run.setTag k v, hset h, rfl, rfl, ?_⟩
      by_cases hk : artifactsUriTag = k
      · subst hk
        exact .inr (by simp [Run.setTag, hv rfl])
      · exact .inl (Function.update_of_ne hk ..)
    | logParam id' k v =>
      obtain rfl : id' = id := hc
      exact ⟨_, hset h, rfl, rfl, .inl rfl⟩
    | logMetric id' k v =>
      obtain rfl : id' = id := hc
      exact ⟨_, hset h, rfl, rfl, .inl rfl⟩
    | _ => exact hc.elim
  · cases c <;> first | exact h.elim | exact hc.elim

theorem safe_contentCalls {α : Type} {p : Action α} {a : Str} {b : BucketName}
    (hi : ¬ P.collector i)
    (ha : safeId a = true) (hp : p.Uses (ContentCall id (artifactsUri b.name a id)))
    (h : Producing i id s) :
    Safe (Journaled (Serves Lossless) i) (contract P i) (fun _ s => Producing i id s) p s := by
  refine safe_of_uses hp (stable_producing hi) (fun c hc s hs h l ans s' hserve => ?_) h
  obtain ⟨run, hrun, hst⟩ := h.running
  obtain ⟨run', hw, hst', hl, huri⟩ := serves_contentCall hc hrun hserve.1
  have hcr : createdId ⟨c, l, ans, s'.1⟩ = none := by
    cases c <;> first | rfl | exact hc.elim
  have hup : uploadedKey ⟨c, l, ans, s'.1⟩ = none := by
    cases c <;> first | rfl | exact hc.elim
  have ht : Turn P i s ⟨c, l, ans, s'.1⟩ s' := by
    refine turn_write hserve.2 hw hcr hup (fun b keys h => ?_) h.created hrun hst hl (fun h => ?_)
      fun h => ?_
    · subst h
      exact hc
    · rcases huri with hu | hu
      · rwa [UriOk, hu]
      · exact .inr ⟨b, a, ha, hu⟩
    · rw [hst', hst] at h
      cases h
  refine ⟨ht.guar hs, h.after ht.journal hcr
    ⟨run', by rw [hw, World.withRun_runs_self], hst'.trans hst⟩
    (ht.lasting.dead id) (fun b k hk => by rwa [hw]) fun b k hu => by cases hup.symm.trans hu⟩

/-- A producer that failed still owns its running run. -/
def Closing (i : ι) (id : Str) : Except PyExc Unit → State ι → Prop
  | .ok _, _ => True
  | .error _, s => Owning i id s

/-- Marking the run finished is the last thing a successful producer does. -/
theorem safe_setFinished (hi : ¬ P.collector i) (h : Producing i id s) :
    Safe (Journaled (Serves Lossless) i) (contract P i) (Closing i id)
      (request (.setTerminated id .finished)) s := by
  refine safe_perform (fun r => ?_) fun s₁ hs hr l a s₂ hserve => ?_
  · cases r with
    | ok u => exact stable_true
    | error e => exact stable_owning hi
  have h₁ := stable_producing hi _ _ h hs hr
  obtain ⟨run, hrun, hst⟩ := h₁.running
  rcases serves_setTerminated hrun hserve.1 with ⟨hw, e, -, rfl⟩ | ⟨hw, ⟨-, rfl⟩ | ⟨e, rfl, -⟩⟩
  · have ht : Turn P i s₁ ⟨.setTerminated id .finished, l, _, s₂.1⟩ s₂ :=
      turn_still hserve.2 (by rw [hw]) (by rw [hw]) rfl rfl (by simp)
    exact ⟨ht.guar hs, h₁.toOwning.after ht.journal rfl ⟨run, by rw [hw, hrun], hst⟩⟩
  · have ht : Turn P i s₁ ⟨.setTerminated id .finished, l, _, s₂.1⟩ s₂ :=
      turn_write hserve.2 hw rfl rfl (by simp) h₁.created hrun hst rfl (fun h => h)
        fun _ hact b k hu => h₁.present b k hu (by
          rintro ⟨run', hrun', hd⟩
          cases hrun.symm.trans hrun'
          rw [disposition_orphan_iff] at hd
          rcases hd with hd | hd
          · cases hact.symm.trans hd
          · exact hd.1 hst)
    exact ⟨ht.guar hs, trivial⟩
  · obtain ⟨_, _, _, _, _, hc⟩ := hserve.1.1 e rfl
    cases hc

theorem safe_uploadAndFinalize (hi : ¬ P.collector i) (ha : safeId args.identity.aliasName = true)
    (h : Producing i id s) :
    Safe (Journaled (Serves Lossless) i) (contract P i) (Closing i id)
      (uploadAndFinalize store fs args id) s := by
  rw [uploadAndFinalize_eq]
  cases hplan : args.plan fs id with
  | error e => exact safe_raise (stable_producing hi) (fun _ h => h.toOwning) h
  | ok planned =>
    rw [ofExcept_ok, ret_bind]
    have hpre := (planArtifacts_ok hplan).2
    refine Safe.bind ((safe_uploadCalls hi ha
      (uses_uploadPlanned (b := store.traceBucket.name) (S := (args.pre id <+: ·)) fs hpre [])
        h).mono ?_)
    rintro (e | objs) s₁ - h₁
    · exact h₁.toOwning
    cases hv : validateContent args.metrics (store.withNamespace args.tags) with
    | error e => exact safe_raise (stable_producing hi) (fun _ h => h.toOwning) h₁
    | ok u =>
      rw [ofExcept_ok, ret_bind]
      refine Safe.bind ((safe_contentCalls (b := store.traceBucket) hi ha
        (uses_recordContent_uri hv) h₁).mono ?_)
      rintro (e | u) s₂ - h₂
      · exact h₂.toOwning
      · exact safe_setFinished hi h₂

/-- The clean-up deletes below the prefix of the thread's own run. -/
theorem safe_cleanUp {a : Str} {b : BucketName} (hi : ¬ P.collector i) (ha : safeId a = true)
    (hid : isRunId id = true) (h : Owning i id s) :
    Safe (Journaled (Serves Lossless) i) (contract P i) (fun _ _ => True)
      (cleanUp (artifactsUri b.name a id) id) s := by
  have hst : Stable (contract P i) (Owning i id) := stable_owning hi
  obtain ⟨t, ht, hkey, hrf⟩ := uriKey_of_safeId ha hid
  have hparse := parseS3Uri_runPrefix b
    (runPrefix_isTwoField (slash_not_mem_of_safeId ha) (not_mem_of_isRunId hid))
  rw [hrf, if_neg (by simp), hkey] at hparse
  refine Safe.bind (Safe.attempt ((safe_deletePrefix hst (fun p hp s₁ hs h₁ l ans s₂ hserve => ?_)
    (fun p keys hp hk s₁ hs h₁ l ans s₂ hserve => ?_) h).mono ?_))
  · have hw := (journaled_listObjects hserve).1
    have ht : Turn P i s₁ ⟨.listObjects p.bucket p.key, l, ans, s₂.1⟩ s₂ :=
      turn_still hserve.2 (by rw [hw]) (by rw [hw]) rfl rfl (by simp)
    exact ⟨ht.guar hs, h₁.after ht.journal rfl (by rw [hw]; exact h₁.running)⟩
  · obtain rfl := Except.ok.inj (hparse.symm.trans hp)
    have hml : s₂.1.mlflow = s₁.1.mlflow := by rw [serves_deleteObjects_eq hserve.1]; rfl
    have ht : Turn P i s₁ ⟨.deleteObjects b.name keys, l, ans, s₂.1⟩ s₂ :=
      turn_delete hserve
        (fun k hkk => ⟨id, hid, ⟨t, slash_not_mem_of_plain (plain_of_safeIdBody ht).2,
        hk k hkk⟩, .inr ⟨h₁.created, h₁.running⟩⟩) fun hj => absurd hj hi
    exact ⟨ht.guar hs, h₁.after ht.journal rfl (by rw [hml]; exact h₁.running)⟩
  rintro r s₁ - h₁
  refine Safe.bind (Safe.attempt (Safe.mono (safe_perform (Q := fun _ _ => True)
    (fun _ => stable_true) fun s₂ hs hr l ans s₃ hserve => ⟨?_, trivial⟩) fun r s₂ _ _ => ?_))
  · have h₂ := hst _ _ h₁ hs hr
    obtain ⟨run, hrun, hrn⟩ := h₂.running
    rcases serves_setTerminated hrun hserve.1 with ⟨hw, -⟩ | ⟨hw, -⟩
    · have ht : Turn P i s₂ ⟨.setTerminated id .failed, l, ans, s₃.1⟩ s₃ :=
        turn_still hserve.2 (by rw [hw]) (by rw [hw]) rfl rfl (by simp)
      exact ht.guar hs
    · have ht : Turn P i s₂ ⟨.setTerminated id .failed, l, ans, s₃.1⟩ s₃ :=
        turn_write hserve.2 hw rfl rfl (by simp) h₂.created hrun hrn rfl (fun h => h)
          fun h => by cases h
      exact ht.guar hs
  · exact safe_ret stable_true (fun _ _ => trivial) trivial

end Body

/-- A producer that has not begun keeps its contract to the end. -/
theorem safe_log (hi : ¬ P.collector i) (h : Idle i s) :
    Safe (Journaled (Serves Lossless) i) (contract P i) (fun _ _ => True)
    (log store fs args) s := by
  have hraise : ∀ {α : Type} {e : PyExc} {s : State ι},
      Safe (Journaled (Serves Lossless) i) (contract P i) (fun _ _ => True)
        (raise e : Action α) s :=
    safe_raise stable_true (fun _ h => h) trivial
  simp only [log, bind_eq]
  cases hv : validateIdentity args.identity with
  | error e => exact hraise
  | ok u =>
    have ha := safeId_of_validate hv
    cases hc : validateContent args.metrics (store.withNamespace args.tags) with
    | error e => exact hraise
    | ok u' =>
      simp only [ofExcept_ok, ret_bind]
      refine Safe.bind ((safe_createRun hi h).mono ?_)
      rintro (e | id) s₁ hs₁ h₁
      · trivial
      have hid := (hs₁.created i id h₁.created).1
      refine Safe.bind (Safe.attempt ((safe_uploadAndFinalize hi ha h₁).mono ?_))
      rintro (e | u) s₂ - h₂
      · refine Safe.bind ((safe_cleanUp (b := store.traceBucket) hi ha hid h₂).mono ?_)
        rintro (e' | u) s₃ - -
        · trivial
        · exact hraise
      · exact safe_ret stable_true (fun _ h => h) trivial

end Accel.Model
