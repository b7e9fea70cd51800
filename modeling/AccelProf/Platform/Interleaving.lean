import AccelProf.Janitor.Breaker
import AccelProf.Platform.Producers
import AccelProf.Spec.Reference

/-! Producers and collectors interleaved call by call over one platform. -/

namespace Accel.Model
open Data Program Prog

variable {ι : Type} {P : Parties ι} {i : ι} {s s' : State ι} {l : Fate} {j : Janitor} {id : Str}

/-- MLflow does not deny a run that it has. -/
def Honest : Call → Fate → Prop
  | .getRun _, .fail e => (PyExc.service e).isNotFound = false
  | .getRun _, .lost e => (PyExc.service e).isNotFound = false
  | _, _ => True

theorem turn_look {F : Call → Fate → Prop} {c : Call} {a : Ans c} (hc : LookCall c)
    (h : Journaled (Serves F) i s c l a s') : Turn P i s ⟨c, l, a, s'.1⟩ s' := by
  have hw := serves_lookCall hc h.1
  refine turn_still h.2 (by rw [hw]) (by rw [hw]) ?_ ?_ fun b keys hb => ?_
  · cases c <;> first | rfl | exact hc.elim
  · cases c <;> first | rfl | exact hc.elim
  · subst hb
    exact hc

def IsRunPrefix (p : Key) (s : State ι) : Prop :=
  ∃ a i id, p = runPrefix a id ∧ safeId a = true ∧ Creates s.2 i id

theorem runIdOf_of_isRunId {a : Str} (ha : safeId a = true) (hid : isRunId id = true) :
    runIdOf (runPrefix a id) = id := by
  rw [runIdOf_runPrefix (slash_not_mem_of_safeId ha) (not_mem_of_isRunId hid),
    if_neg (isRunId_ne_nil hid)]

/-- An honest MLflow calls a run an orphan only when it is dead. -/
theorem dead_of_tellsOrphan {w w' : World} {a : Ans (.getRun id)}
    (h : Serves Honest w (.getRun id) l a w') (hrun : w.mlflow.runs id ≠ none)
    (ho : TellsOrphan a) :
    Dead id w := by
  obtain ⟨run, hrun⟩ := Option.ne_none_iff_exists'.1 hrun
  obtain ⟨hF, h⟩ := h
  have hlie : ∀ {e : ServiceError}, (PyExc.service e).isNotFound = false →
      a = .error (.service e) → False := by
    rintro e he rfl
    cases he.symm.trans ho
  cases l with
  | ok =>
    obtain ⟨-, rfl⟩ := h
    simp only [hrun] at ho
    exact ⟨run, hrun, ho⟩
  | perKey errs => exact h.elim
  | fail e => exact (hlie hF h.1).elim
  | lost e => exact (hlie hF h.1).elim

/-- A collector keeps its contract: it deletes only objects of dead runs. -/
theorem sweepRule_collector (hi : P.collector i) (j : Janitor) : SweepRule Honest i (contract P i) j
    IsRunPrefix (fun _ _ => True) (fun p s => Dead (runIdOf p) s.1) where
  own := fun _ _ _ _ hg => ⟨hg.1, hg.2.1, fun hn => absurd hi hn⟩
  stable := fun p => by
    refine ⟨?_, stable_true, fun _ _ hd _ hr => hr.1.dead _ hd⟩
    rintro s s' ⟨a, i', id, hp, ha, hc⟩ - hr
    exact ⟨a, i', id, hp, ha, hr.1.creates i' id hc⟩
  look := fun hc hs h => (turn_look hc h).guar hs
  list := fun {s pre l a s' p} hs h h2 ⟨k, hk, hp⟩ => by
    obtain ⟨al, i', id, ha, hpk, hc⟩ := hs.keys _ k hk
    have h2' := runPrefix_isTwoField (slash_not_mem_of_safeId ha)
      (not_mem_of_isRunId (hs.created i' id hc).1)
    have ht : Turn P i s ⟨.listCommonPrefixes j.bucket.name pre, l, a, s'.1⟩ s' :=
      turn_look trivial h
    exact ⟨al, i', id, twoField_unique h2 h2' hp hpk, ha, ht.lasting.creates i' id hc⟩
  scan := fun _ _ _ _ _ => trivial
  ask := fun {s p l a s'} hs _ hp h ho => by
    obtain ⟨al, i', id, rfl, ha, hc⟩ := hp
    obtain ⟨hid, hrun⟩ := hs.created i' id hc
    rw [serves_lookCall (c := .getRun _) trivial h.1]
    refine dead_of_tellsOrphan h.1 ?_ ho
    rwa [runIdOf_of_isRunId ha hid]
  delete := fun {s p keys l a s'} hs _ _ hp _ hd hk h => by
    obtain ⟨al, i', id, rfl, ha, hc⟩ := hp
    have hid := (hs.created i' id hc).1
    rw [runIdOf_of_isRunId ha hid] at hd
    obtain ⟨t, ht, hkey, -⟩ := uriKey_of_safeId ha hid
    have hall : ∀ k ∈ keys, IsKeyOf id k := fun k hkk =>
      ⟨t, slash_not_mem_of_plain (plain_of_safeIdBody ht).2, hkey ▸ hk k hkk⟩
    exact (turn_delete h (fun k hk => ⟨id, hid, hall k hk, .inl hd⟩)
      fun _ k hk => ⟨i', id, hc, hall k hk, hd⟩).guar hs

inductive Role where
  | producer (store : Store) (fs : LocalFs) (args : LogArgs)
  | collector (j : Janitor)

namespace Role

def program : Role → Action Unit
  | .producer store fs args => do
    let _ ← log store fs args
    return ()
  | .collector j => do
    let _ ← j.sweep true
    return ()

/-- A failed call of a producer has had no effect, but for an upload; for a collector MLflow is
honest. -/
def faults : Role → Call → Fate → Prop
  | .producer .. => Lossless
  | .collector _ => Honest

def isCollector : Role → Prop
  | .producer .. => False
  | .collector _ => True

end Role

/-- The parties of a platform with these threads. -/
def parties (role : ι → Role) (retired : Str → Prop) : Parties ι :=
  ⟨fun i => (role i).isCollector, retired⟩

def SoftDeletes (retired : Str → Prop) (s s' : State ι) : Prop :=
  ∃ id run, retired id ∧ s.1.mlflow.runs id = some run ∧
    s' = (s.1.withRun id run.setDeleted, s.2)

theorem softDeletes_runs {run : Run} (hrun : s.1.mlflow.runs id = some run) (id' : Str) :
    (s.1.withRun id run.setDeleted).mlflow.runs id' =
      (s.1.mlflow.runs id').map fun r => if id' = id then r.setDeleted else r := by
  by_cases h : id' = id
  · subst h
    rw [World.withRun_runs_self, hrun]
    simp
  · rw [World.withRun_runs_ne h]
    simp [h]

/-- A soft deletion keeps the platform consistent and is within what every thread counts on. -/
theorem softDeletes_consistent (hs : Consistent P s) (h : SoftDeletes P.retired s s') :
    Consistent P s' ∧ ∀ i, Others i s s' := by
  obtain ⟨id₀, run₀, hret, hrun₀, rfl⟩ := h
  have hruns := softDeletes_runs hrun₀
  -- every run is still there, one of them with another lifecycle stage
  have hback : ∀ {id run'}, (s.1.withRun id₀ run₀.setDeleted).mlflow.runs id = some run' →
      ∃ run, s.1.mlflow.runs id = some run ∧ run' = if id = id₀ then run.setDeleted else run :=
    fun {id run'} h => by
      rw [hruns] at h
      obtain ⟨run, hr, rfl⟩ := Option.map_eq_some_iff.1 h
      exact ⟨run, hr, rfl⟩
  have hlast : Lasting s (s.1.withRun id₀ run₀.setDeleted, s.2) := by
    refine ⟨fun _ _ hc => hc, fun id hr => ?_, ?_⟩
    · simpa [hruns] using hr
    · rintro id ⟨run, hr, hd⟩
      refine ⟨_, by rw [hruns, hr]; rfl, ?_⟩
      split_ifs
      · rw [disposition_orphan_iff]
        exact .inl rfl
      · exact hd
  refine ⟨{
    keys := hs.keys
    created := fun i id hc => (hs.created i id hc).imp_right (hlast.runs id)
    owner := hs.owner
    uploaded := hs.uploaded
    uri := fun i id hc run' hr' => ?_
    stage := fun i id hc run' hr' hl => ?_
    finished := fun i id hc run' hr' hst hl b k hu => ?_
    collected := fun i st hst hi b k hrm => ?_ }, fun i => {
      toLasting := hlast
      journal := fun _ => Iff.rfl
      status := fun id _ run hr => ⟨_, by rw [hruns, hr]; rfl, by split_ifs <;> rfl⟩
      kept := fun _ _ _ _ _ hk _ => hk }⟩
  · obtain ⟨run, hr, rfl⟩ := hback hr'
    have := hs.uri i id hc run hr
    split_ifs <;> exact this
  · obtain ⟨run, hr, rfl⟩ := hback hr'
    split_ifs at hl with hi
    · exact hi ▸ hret
    · exact hs.stage i id hc run hr hl
  · obtain ⟨run, hr, rfl⟩ := hback hr'
    split_ifs at hst hl
    · cases hl
    · exact hs.finished i id hc run hr hst hl b k hu
  · obtain ⟨j, id, hc, hk, hd⟩ := hs.collected i st hst hi b k hrm
    exact ⟨j, id, hc, hk, hlast.dead id hd⟩

/-- The threads of a platform that starts with empty buckets. -/
def start (role : ι → Role) (w : World) : Pool ι Call Ans PyExc Unit (State ι) :=
  ⟨(w, []), fun i => (role i).program⟩

theorem not_creates_nil : ¬ Creates ([] : Journal ι Call Ans Fate World) i id :=
  fun ⟨_, hst, _⟩ => List.not_mem_nil hst

theorem not_uploads_nil {b : Str} {k : Key} :
    ¬ Uploads ([] : Journal ι Call Ans Fate World) i b k :=
  fun ⟨_, hst, _⟩ => List.not_mem_nil hst

theorem consistent_start {w : World} (h : ∀ b, w.s3 b = .empty) :
    Consistent P ((w, []) : State ι) where
  keys := fun b k hk => by
    rw [h b] at hk
    exact absurd hk (SortedMap.not_mem_empty k)
  created := fun _ _ hc => absurd hc not_creates_nil
  owner := fun _ _ _ hc => absurd hc not_creates_nil
  uploaded := fun _ _ hc => absurd hc not_creates_nil
  uri := fun _ _ hc => absurd hc not_creates_nil
  stage := fun _ _ hc => absurd hc not_creates_nil
  finished := fun _ _ hc => absurd hc not_creates_nil
  collected := fun _ _ hst => absurd hst List.not_mem_nil

theorem safe_program (role : ι → Role) (retired : Str → Prop) (w : World) (i : ι) :
    Safe (Journaled (Serves (role i).faults) i) (contract (parties role retired) i)
      (fun _ _ => True) (role i).program (w, []) := by
  cases hr : role i with
  | producer store fs args =>
    have hi : ¬ (parties role retired).collector i := by
      change ¬ (role i).isCollector
      rw [hr]
      exact id
    exact safe_discard (safe_log hi ⟨fun _ => not_creates_nil, fun _ _ => not_uploads_nil⟩)
  | collector j =>
    have hi : (parties role retired).collector i := by
      change (role i).isCollector
      rw [hr]
      trivial
    exact safe_discard ((sweepRule_collector hi j).safe_sweep true)

theorem reaches_consistent [DecidableEq ι] {role : ι → Role} {retired : Str → Prop} {w : World}
    (hempty : ∀ b, w.s3 b = .empty) {s : Pool ι Call Ans PyExc Unit (State ι)}
    (h : Pool.Reaches (fun i => Journaled (Serves (role i).faults) i) (SoftDeletes retired)
      (start role w) s) : Consistent (parties role retired) s.world := by
  refine (pool_invariant (K := contract (parties role retired)) (Q := fun _ _ _ => True)
    (fun _ => rfl) (fun _ _ _ _ _ _ hg => hg.1)
    (fun i j hij _ _ _ _ _ hg => ⟨hg.2.1, fun _ => hg.2.2 j hij.symm⟩) (fun s s' hs hd => ?_) h
    (consistent_start hempty) (safe_program role retired w)).1
  obtain ⟨hs', ho⟩ := softDeletes_consistent (P := parties role retired) hs hd
  exact ⟨hs', fun j => ⟨(ho j).toLasting, fun _ => ho j⟩⟩

/-- In every state of every interleaving of producers, collectors and soft deletions that starts
with empty buckets: a finished run that was not deleted has every object its producer uploaded, and
no collector removed an object of a running run that nobody deletes. -/
theorem interleaving_keeps_artifacts [DecidableEq ι] (role : ι → Role) (retired : Str → Prop)
    {w : World} (hempty : ∀ b, w.s3 b = .empty) {s : Pool ι Call Ans PyExc Unit (State ι)}
    (h : Pool.Reaches (fun i => Journaled (Serves (role i).faults) i) (SoftDeletes retired)
      (start role w) s) :
    (∀ i id, Creates s.world.2 i id → ∀ run, s.world.1.mlflow.runs id = some run →
      run.status = some .finished → run.lifecycleStage = .active →
      ∀ b k, Uploads s.world.2 i b k → k ∈ s.world.1.s3 b) ∧
    ∀ id run, isRunId id = true → s.world.1.mlflow.runs id = some run →
      run.status = some .running → run.lifecycleStage = .active ∨ ¬ retired id →
      ∀ i st, (i, st) ∈ s.world.2 → (role i).isCollector →
      ∀ b k, IsKeyOf id k → ¬ Removes b k st := by
  have hs := reaches_consistent hempty h
  refine ⟨hs.finished, fun id run hid hr hst hl i st hmem hi b k hk hrm => ?_⟩
  obtain ⟨j, id', hc, hk', run', hr', hd⟩ := hs.collected i st hmem hi b k hrm
  obtain rfl := isKeyOf_unique hid (hs.created j id' hc).1 hk hk'
  cases hr.symm.trans hr'
  rw [disposition_orphan_iff] at hd
  rcases hd with hd | hd
  · rcases hl with hl | hl
    · cases hl.symm.trans hd
    · exact hl (hs.stage j id hc run hr hd)
  · exact hd.1 hst

section Sample

theorem noRuns_s3 (b : Str) : noRuns.s3 b = .empty := by
  simp [noRuns, World.of, Bucket.ofKeys]

theorem honest_serve (w : World) (c : Call) : Honest c (serve (fun _ => .ok) w c).1 := by
  have h : (serve (fun _ => .ok) w c).1 = .ok ∨
      (serve (fun _ => .ok) w c).1 = .fail unavailable := by
    simp only [serve]
    split
    · exact .inl rfl
    · exact .inr rfl
  rcases h with h | h <;> rw [h] <;> cases c <;> first | exact trivial | exact rfl

/-- A producer and a collector. -/
def sampleRole : Bool → Role
  | true => .producer sampleStore sampleFs sampleArgs
  | false => .collector sampleJanitor

def sampleServices (_ : Bool) : World → (c : Call) → Fate × Ans c × World := serve fun _ => .ok

theorem serves_sampleServices (i : Bool) (w : World) (c : Call) :
    Serves (sampleRole i).faults w c (sampleServices i w c).1 (sampleServices i w c).2.1
      (sampleServices i w c).2.2 := by
  refine serves_serve ?_
  cases i with
  | true => exact lossless_serve _ (fun c e => by simp) w c
  | false => exact honest_serve w c

/-- The collector looks around between the producer's upload and its last call. -/
def sampleSchedule : List Bool :=
  [true, true, true, true, false, false, false, false, false, true, true, true]

def sampleEnd : Pool Bool Call Ans PyExc Unit (State Bool) :=
  (start sampleRole noRuns).schedule (journaling sampleServices) sampleSchedule

/-- A run that finishes after a collector has found it running. -/
theorem interleaving_keeps_artifacts_sample : ∃ s : Pool Bool Call Ans PyExc Unit (State Bool),
    Pool.Reaches (fun i => Journaled (Serves (sampleRole i).faults) i) (SoftDeletes fun _ => False)
      (start sampleRole noRuns) s ∧
    IsFinished (sampleRunId '0') s.world.1 ∧ Uploads s.world.2 true ['b'] sampleArtifact ∧
    sampleArtifact ∈ s.world.1.s3 ['b'] := by
  have hreach : Pool.Reaches (fun i => Journaled (Serves (sampleRole i).faults) i)
      (SoftDeletes fun _ => False) (start sampleRole noRuns) sampleEnd :=
    reaches_schedule (journaled_journaling serves_sampleServices) _ _
  have hrun : ((sampleEnd.world.1.mlflow.runs (sampleRunId '0')).any fun run =>
      run.status = some .finished ∧ run.lifecycleStage = .active) = true := by decide +kernel
  have hcreate : (sampleEnd.world.2.any fun e => e.1 && createdId e.2 = some (sampleRunId '0')) =
      true := by decide +kernel
  have hupload :
      (sampleEnd.world.2.any fun e => e.1 && uploadedKey e.2 = some (['b'], sampleArtifact))
      = true := by decide +kernel
  simp only [Option.any_eq_true, List.any_eq_true, Bool.and_eq_true, decide_eq_true_eq]
    at hrun hcreate hupload
  obtain ⟨run, hr, hst, hl⟩ := hrun
  obtain ⟨⟨i, st⟩, hst₁, rfl, hc⟩ := hcreate
  obtain ⟨⟨i, st'⟩, hst₂, rfl, hu⟩ := hupload
  exact ⟨sampleEnd, hreach, ⟨run, hr, hst⟩, ⟨st', hst₂, hu⟩,
    (interleaving_keeps_artifacts sampleRole _
    noRuns_s3 hreach).1 true _ ⟨st, hst₁, hc⟩ run hr hst hl _ _ ⟨st', hst₂, hu⟩⟩

end Sample

end Accel.Model
