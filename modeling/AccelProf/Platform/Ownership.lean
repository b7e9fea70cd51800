import AccelProf.Platform.Sweeping
import AccelProf.Store.Atomicity

/-! Who created which run and uploaded what, as the journal tells it, and the facts that hold of the
platform between any two calls. -/

namespace Accel.Model
open Data Program Prog

variable {ι : Type} {i j : ι} {id id' : Str} {b : Str} {k : Key} {w w' : World}

/-- The id of the run that a call created and returned. -/
def createdId : Step Call Ans Fate World → Option Str
  | ⟨.createRun .., _, .ok id, _⟩ => some id
  | _ => none

/-- Where an upload that took effect put its object. -/
def uploadedKey : Step Call Ans Fate World → Option (Str × Key)
  | ⟨.uploadFile _ b key _ _, .ok, _, _⟩ => some (b, key)
  | ⟨.uploadFile _ b key _ _, .lost _, _, _⟩ => some (b, key)
  | _ => none

theorem uploadedKey_of_created {st : Step Call Ans Fate World} (h : createdId st = some id) :
    uploadedKey st = none := by
  obtain ⟨c, l, a, w⟩ := st
  cases c <;> first | rfl | cases h

section
variable (J : Journal ι Call Ans Fate World) (i : ι)

def Creates (id : Str) : Prop := ∃ st, (i, st) ∈ J ∧ createdId st = some id

def Uploads (b : Str) (k : Key) : Prop := ∃ st, (i, st) ∈ J ∧ uploadedKey st = some (b, k)

end

theorem creates_append {J : Journal ι Call Ans Fate World} {st : Step Call Ans Fate World} :
    Creates (J ++ [(i, st)]) j id ↔ Creates J j id ∨ j = i ∧ createdId st = some id := by
  constructor
  · rintro ⟨st', hst, hc⟩
    rcases List.mem_append.1 hst with hst | hst
    · exact .inl ⟨st', hst, hc⟩
    · cases List.mem_singleton.1 hst
      exact .inr ⟨rfl, hc⟩
  · rintro (⟨st', hst, hc⟩ | ⟨rfl, hc⟩)
    · exact ⟨st', List.mem_append_left _ hst, hc⟩
    · exact ⟨st, by simp, hc⟩

theorem uploads_append {J : Journal ι Call Ans Fate World} {st : Step Call Ans Fate World} :
    Uploads (J ++ [(i, st)]) j b k ↔ Uploads J j b k ∨ j = i ∧ uploadedKey st = some (b, k) := by
  constructor
  · rintro ⟨st', hst, hc⟩
    rcases List.mem_append.1 hst with hst | hst
    · exact .inl ⟨st', hst, hc⟩
    · cases List.mem_singleton.1 hst
      exact .inr ⟨rfl, hc⟩
  · rintro (⟨st', hst, hc⟩ | ⟨rfl, hc⟩)
    · exact ⟨st', List.mem_append_left _ hst, hc⟩
    · exact ⟨st, by simp, hc⟩

/-- The key's second segment is `id`. -/
def IsKeyOf (id : Str) (k : Key) : Prop := ∃ a, '/' ∉ a ∧ runPrefix a id <+: k

theorem isKeyOf_unique (hid : isRunId id = true) (hid' : isRunId id' = true) (h : IsKeyOf id k)
    (h' : IsKeyOf id' k) : id = id' := by
  obtain ⟨a, ha, s, rfl⟩ := h
  obtain ⟨a', ha', t, ht⟩ := h'
  exact (runPrefix_append_inj ha (not_mem_of_isRunId hid) ha' (not_mem_of_isRunId hid') ht.symm).2.1

/-- The run's record makes its objects garbage. -/
def Dead (id : Str) (w : World) : Prop :=
  ∃ run, w.mlflow.runs id = some run ∧ dispositionOf (toRef (id, run)) = .orphan

theorem disposition_orphan_iff {run : Run} : dispositionOf (toRef (id, run)) = .orphan ↔
    run.lifecycleStage = .deleted ∨ run.status ≠ some .running ∧ run.status ≠ some .scheduled ∧
      run.status ≠ some .finished := by
  rw [dispositionOf]
  cases hl : run.lifecycleStage <;> rcases hs : run.status with _ | _ | _ | _ | _ | _ | s <;>
    simp [RunRef.isDeleted, RunRef.isFinished, toRef, hl, hs]

/-- What validation lets through as an alias: the documented charset, perhaps with a line break
after it. -/
theorem safeId_iff {a : Str} : safeId a = true ↔
    safeIdBody a = true ∨ ∃ t, a = t ++ ['\n'] ∧ safeIdBody t = true := matchAnchored_iff

/-- The prefix of a run under a valid alias comes out of its URI with the run id intact. -/
theorem uriKey_of_safeId {a : Str} (ha : safeId a = true) (hid : isRunId id = true) :
    ∃ t, safeIdBody t = true ∧ uriKey (runPrefix a id) = runPrefix t id ∧
      isRefused (runPrefix a id) = false := by
  rcases safeId_iff.1 ha with ha | ⟨t, rfl, ht⟩
  · obtain ⟨hne, hp⟩ := plain_of_safeIdBody ha
    exact ⟨a, ha, uriKey_of_plain hp (plain_of_isRunId hid) hne,
      isRefused_of_plain hp (plain_of_isRunId hid)⟩
  · obtain ⟨hne, hp⟩ := plain_of_safeIdBody ht
    have hr := isRefused_of_plain hp (plain_of_isRunId hid)
    refine ⟨t, ht, ?_, ?_⟩
    · have hclean : clean (runPrefix (t ++ ['\n']) id) = clean (runPrefix t id) := by
        simp [runPrefix, clean, isRemoved]
      rw [uriKey, hclean]
      exact uriKey_of_plain hp (plain_of_isRunId hid) hne
    · rw [isRefused, Bool.or_eq_false_iff, decide_eq_false_iff_not, decide_eq_false_iff_not] at hr ⊢
      simpa [runPrefix] using hr

theorem slash_not_mem_of_safeId {a : Str} (ha : safeId a = true) : '/' ∉ a := by
  rcases safeId_iff.1 ha with ha | ⟨t, rfl, ht⟩
  · exact slash_not_mem_of_plain (plain_of_safeIdBody ha).2
  · have := slash_not_mem_of_plain (plain_of_safeIdBody ht).2
    simpa using this

/-- The `artifacts_uri` tag is not set, or it names the run's prefix under some alias. -/
def UriOk (id : Str) (run : Run) : Prop := run.tags artifactsUriTag = none ∨
  ∃ (b : BucketName) (a : Str), safeId a = true ∧
    run.tags artifactsUriTag = some (artifactsUri b.name a id)

/-- Which threads are collectors, and which runs somebody may soft-delete. -/
structure Parties (ι : Type) where
  collector : ι → Prop
  retired : Str → Prop

/-- What holds between any two calls. Objects belong to runs that a thread created; a run belongs to
one thread; a finished run that nobody deleted has every object its thread uploaded; what a
collector removed belonged to a dead run. -/
structure Consistent (P : Parties ι) (s : State ι) : Prop where
  keys : ∀ b, ∀ k ∈ s.1.s3 b, ∃ a i id, safeId a = true ∧ runPrefix a id <+: k ∧ Creates s.2 i id
  created : ∀ i id, Creates s.2 i id → isRunId id = true ∧ s.1.mlflow.runs id ≠ none
  owner : ∀ i j id, Creates s.2 i id → Creates s.2 j id → i = j
  uploaded : ∀ i id, Creates s.2 i id → ∀ b k, Uploads s.2 i b k → IsKeyOf id k
  uri : ∀ i id, Creates s.2 i id → ∀ run, s.1.mlflow.runs id = some run → UriOk id run
  stage : ∀ i id, Creates s.2 i id → ∀ run, s.1.mlflow.runs id = some run →
    run.lifecycleStage = .deleted → P.retired id
  finished : ∀ i id, Creates s.2 i id → ∀ run, s.1.mlflow.runs id = some run →
    run.status = some .finished → run.lifecycleStage = .active →
    ∀ b k, Uploads s.2 i b k → k ∈ s.1.s3 b
  collected : ∀ i st, (i, st) ∈ s.2 → P.collector i → ∀ b k, Removes b k st →
    ∃ j id, Creates s.2 j id ∧ IsKeyOf id k ∧ Dead id s.1

/-- What one call of thread `i`, recorded as `st`, may do: it changes and cleans up after its own
run, which is still unfinished, and else removes only objects of dead runs. -/
structure Turn (P : Parties ι) (i : ι) (s : State ι) (st : Step Call Ans Fate World)
    (s' : State ι) :
    Prop where
  journal : s'.2 = s.2 ++ [(i, st)]
  runs : ∀ id run, s.1.mlflow.runs id = some run → ∃ run', s'.1.mlflow.runs id = some run' ∧
    (run' = run ∨ Creates s.2 i id ∧ run.status = some .running ∧
      run'.lifecycleStage = run.lifecycleStage ∧ (UriOk id run → UriOk id run'))
  fresh : ∀ id run', s.1.mlflow.runs id = none → s'.1.mlflow.runs id = some run' →
    run'.status ≠ some .finished ∧ run'.lifecycleStage = .active ∧ UriOk id run'
  creates : ∀ id, createdId st = some id → isRunId id = true ∧ s.1.mlflow.runs id = none ∧
    s'.1.mlflow.runs id ≠ none ∧ ∀ b k, ¬ Uploads s.2 i b k
  keys : ∀ b, ∀ k ∈ s'.1.s3 b, k ∈ s.1.s3 b ∨
    ∃ a id, safeId a = true ∧ runPrefix a id <+: k ∧ Creates s.2 i id
  kept : ∀ b, ∀ k ∈ s.1.s3 b, k ∉ s'.1.s3 b → ∃ id, isRunId id = true ∧ IsKeyOf id k ∧
    (Dead id s.1 ∨ Creates s.2 i id ∧ ∃ run, s.1.mlflow.runs id = some run ∧
      run.status = some .running)
  uploads : ∀ b k, uploadedKey st = some (b, k) → k ∈ s'.1.s3 b ∧
    ∀ id, Creates s.2 i id → IsKeyOf id k
  finish : ∀ id run run', Creates s.2 i id → s.1.mlflow.runs id = some run →
    run.status = some .running → s'.1.mlflow.runs id = some run' → run'.status = some .finished →
    run'.lifecycleStage = .active → ∀ b k, Uploads s.2 i b k → k ∈ s'.1.s3 b
  collects : P.collector i → ∀ b k, Removes b k st →
    ∃ j id, Creates s.2 j id ∧ IsKeyOf id k ∧ Dead id s.1

/-- Runs stay, with their creators, and dead runs stay dead. -/
structure Lasting (s s' : State ι) : Prop where
  creates : ∀ i id, Creates s.2 i id → Creates s'.2 i id
  runs : ∀ id, s.1.mlflow.runs id ≠ none → s'.1.mlflow.runs id ≠ none
  dead : ∀ id, Dead id s.1 → Dead id s'.1

/-- What thread `j` can count on while others act: its journal and the status of its run do not
change, and the objects of its run stay while the run is not dead. -/
structure Others (j : ι) (s s' : State ι) : Prop extends Lasting s s' where
  journal : ∀ st, (j, st) ∈ s'.2 ↔ (j, st) ∈ s.2
  status : ∀ id, Creates s.2 j id → ∀ run, s.1.mlflow.runs id = some run →
    ∃ run', s'.1.mlflow.runs id = some run' ∧ run'.status = run.status
  kept : ∀ id, Creates s.2 j id → ∀ b k, IsKeyOf id k → k ∈ s.1.s3 b → ¬ Dead id s'.1 →
    k ∈ s'.1.s3 b

theorem Lasting.refl (s : State ι) : Lasting s s := ⟨fun _ _ h => h, fun _ h => h, fun _ h => h⟩

theorem Lasting.trans {s₁ s₂ s₃ : State ι} (h : Lasting s₁ s₂) (h' : Lasting s₂ s₃) :
    Lasting s₁ s₃ where
  creates := fun i id hc => h'.creates i id (h.creates i id hc)
  runs := fun id hr => h'.runs id (h.runs id hr)
  dead := fun id hd => h'.dead id (h.dead id hd)

theorem Others.refl (j : ι) (s : State ι) : Others j s s where
  toLasting := .refl s
  journal := fun _ => Iff.rfl
  status := fun _ _ run hr => ⟨run, hr, rfl⟩
  kept := fun _ _ _ _ _ hk _ => hk

theorem Others.creates_iff {s s' : State ι} (h : Others j s s') :
    Creates s'.2 j id ↔ Creates s.2 j id :=
  exists_congr fun st => and_congr_left' (h.journal st)

theorem Others.uploads_iff {s s' : State ι} (h : Others j s s') :
    Uploads s'.2 j b k ↔ Uploads s.2 j b k :=
  exists_congr fun st => and_congr_left' (h.journal st)

theorem Others.trans {s₁ s₂ s₃ : State ι} (h : Others j s₁ s₂) (h' : Others j s₂ s₃) :
    Others j s₁ s₃ where
  toLasting := h.toLasting.trans h'.toLasting
  journal := fun st => (h'.journal st).trans (h.journal st)
  status := fun id hc run hr => by
    obtain ⟨run₂, hr₂, hs₂⟩ := h.status id hc run hr
    obtain ⟨run₃, hr₃, hs₃⟩ := h'.status id (h.creates_iff.2 hc) run₂ hr₂
    exact ⟨run₃, hr₃, hs₃.trans hs₂⟩
  kept := fun id hc b k hk hks hd => h'.kept id (h.creates_iff.2 hc) b k hk
    (h.kept id hc b k hk hks fun hd' => hd (h'.dead id hd')) hd

theorem dead_of_running {run run' : Run} (h : dispositionOf (toRef (id, run)) = .orphan)
    (hr : run.status = some .running) (hl : run'.lifecycleStage = run.lifecycleStage) :
    dispositionOf (toRef (id, run')) = .orphan := by
  rw [disposition_orphan_iff] at h ⊢
  rcases h with h | h
  · exact .inl (hl.trans h)
  · exact absurd hr h.1

section Turn
variable {P : Parties ι} {s s' : State ι} {st : Step Call Ans Fate World}

theorem Turn.lasting (h : Turn P i s st s') : Lasting s s' where
  creates := fun j id hc => by
    rw [h.journal, creates_append]
    exact .inl hc
  runs := fun id hr hn => by
    obtain ⟨run, hr⟩ := Option.ne_none_iff_exists'.1 hr
    obtain ⟨run', hr', -⟩ := h.runs id run hr
    cases hn.symm.trans hr'
  dead := fun id ⟨run, hr, hd⟩ => by
    obtain ⟨run', hr', rfl | ⟨-, hst, hl, -⟩⟩ := h.runs id run hr
    · exact ⟨run', hr', hd⟩
    · exact ⟨run', hr', dead_of_running hd hst hl⟩

/-- A turn of one thread is within what the others count on. -/
theorem Turn.others (h : Turn P i s st s') (hs : Consistent P s) (hj : j ≠ i) : Others j s s' where
  toLasting := h.lasting
  journal := fun st' => by simp [h.journal, hj]
  status := fun id hc run hr => by
    obtain ⟨run', hr', rfl | ⟨hci, -⟩⟩ := h.runs id run hr
    · exact ⟨run', hr', rfl⟩
    · exact absurd (hs.owner _ _ _ hc hci) hj
  kept := fun id hc b k hk hks hd => by
    by_contra hks'
    obtain ⟨id', hid', hk', hwhy⟩ := h.kept b k hks hks'
    obtain rfl := isKeyOf_unique (hs.created j id hc).1 hid' hk hk'
    rcases hwhy with hdead | ⟨hci, -⟩
    · exact hd (h.lasting.dead _ hdead)
    · exact hj (hs.owner _ _ _ hc hci)

/-- Every turn keeps the platform consistent. -/
theorem Turn.consistent (h : Turn P i s st s') (hs : Consistent P s) : Consistent P s' where
  keys := fun b k hk => by
    rcases h.keys b k hk with hk | ⟨a, id, ha, hp, hc⟩
    · obtain ⟨a, j, id, ha, hp, hc⟩ := hs.keys b k hk
      exact ⟨a, j, id, ha, hp, h.lasting.creates j id hc⟩
    · exact ⟨a, i, id, ha, hp, h.lasting.creates i id hc⟩
  created := fun j id hc => by
    rw [h.journal, creates_append] at hc
    rcases hc with hc | ⟨rfl, hc⟩
    · exact (hs.created j id hc).imp_right (h.lasting.runs id)
    · obtain ⟨hid, -, hr, -⟩ := h.creates id hc
      exact ⟨hid, hr⟩
  owner := fun j₁ j₂ id h₁ h₂ => by
    rw [h.journal, creates_append] at h₁ h₂
    rcases h₁ with h₁ | ⟨rfl, hc₁⟩ <;> rcases h₂ with h₂ | ⟨rfl, hc₂⟩
    · exact hs.owner _ _ _ h₁ h₂
    · exact absurd (h.creates id hc₂).2.1 (hs.created _ _ h₁).2
    · exact absurd (h.creates id hc₁).2.1 (hs.created _ _ h₂).2
    · rfl
  uploaded := fun j id hc b k hu => by
    rw [h.journal, creates_append] at hc
    rw [h.journal, uploads_append] at hu
    rcases hc with hc | ⟨rfl, hc⟩ <;> rcases hu with hu | ⟨hi, hu⟩
    · exact hs.uploaded j id hc b k hu
    · subst hi
      exact (h.uploads b k hu).2 id hc
    · exact absurd hu ((h.creates id hc).2.2.2 b k)
    -- one step cannot both create a run and upload a file
    · cases (uploadedKey_of_created hc).symm.trans hu
  uri := fun j id hc run' hr' => by
    cases hr : s.1.mlflow.runs id with
    | none => exact (h.fresh id run' hr hr').2.2
    | some run =>
      rw [h.journal, creates_append] at hc
      rcases hc with hc | ⟨rfl, hc⟩
      · have hu := hs.uri j id hc run hr
        obtain ⟨run'', hr'', rfl | ⟨-, -, -, huri⟩⟩ := h.runs id run hr
        · cases hr'.symm.trans hr''
          exact hu
        · cases hr'.symm.trans hr''
          exact huri hu
      · cases hr.symm.trans (h.creates id hc).2.1
  stage := fun j id hc run' hr' hl => by
    cases hr : s.1.mlflow.runs id with
    | none => cases hl.symm.trans (h.fresh id run' hr hr').2.1
    | some run =>
      rw [h.journal, creates_append] at hc
      rcases hc with hc | ⟨rfl, hc⟩
      · obtain ⟨run'', hr'', rfl | ⟨-, -, hl', -⟩⟩ := h.runs id run hr
        · cases hr'.symm.trans hr''
          exact hs.stage j id hc _ hr hl
        · cases hr'.symm.trans hr''
          exact hs.stage j id hc run hr (hl'.symm.trans hl)
      · cases hr.symm.trans (h.creates id hc).2.1
  finished := fun j id hc run' hr' hst hl b k hu => by
    cases hr : s.1.mlflow.runs id with
    | none => exact absurd hst (h.fresh id run' hr hr').1
    | some run =>
      rw [h.journal, creates_append] at hc
      -- a run that this very step creates has not been there before
      replace hc : Creates s.2 j id := hc.resolve_right fun hc => by
        cases hr.symm.trans (h.creates id hc.2).2.1
      rw [h.journal, uploads_append] at hu
      rcases hu with hu | ⟨rfl, hu⟩
      swap
      · exact (h.uploads b k hu).1
      obtain ⟨run'', hr'', hrun⟩ := h.runs id run hr
      cases hr'.symm.trans hr''
      rcases hrun with rfl | ⟨hci, hrn, -⟩
      · have hks := hs.finished j id hc _ hr hst hl b k hu
        -- whoever takes the key away holds its run for dead or not FINISHED
        by_contra hks'
        obtain ⟨id', hid', hk', hwhy⟩ := h.kept b k hks hks'
        obtain rfl := isKeyOf_unique (hs.created j id hc).1 hid' (hs.uploaded j id hc b k hu) hk'
        rcases hwhy with ⟨run, hr₂, hd⟩ | ⟨-, run, hr₂, hrn⟩
        · cases hr.symm.trans hr₂
          rw [disposition_orphan_iff] at hd
          rcases hd with hd | hd
          · cases hl.symm.trans hd
          · exact hd.2.2 hst
        · cases hr.symm.trans hr₂
          cases hst.symm.trans hrn
      · obtain rfl := hs.owner _ _ _ hc hci
        exact h.finish id run run' hci hr hrn hr' hst hl b k hu
  collected := fun j st' hst hj b k hrm => by
    rw [h.journal] at hst
    have hd : ∃ j id, Creates s.2 j id ∧ IsKeyOf id k ∧ Dead id s.1 := by
      rcases List.mem_append.1 hst with hst | hst
      · exact hs.collected j st' hst hj b k hrm
      · cases List.mem_singleton.1 hst
        exact h.collects hj b k hrm
    obtain ⟨j', id, hc, hk, hd⟩ := hd
    exact ⟨j', id, h.lasting.creates j' id hc, hk, h.lasting.dead id hd⟩

end Turn

end Accel.Model
