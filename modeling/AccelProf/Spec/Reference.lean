import AccelProf.Model.S3Uri
import AccelProf.Model.Services

/-! A reference pair of services that leaves no choice open, with faults injected by call. It makes
executions computable. -/

namespace Accel.Model
open Data Program

def unavailable : ServiceError := ⟨some "TEMPORARILY_UNAVAILABLE".toList, none⟩

def hexDigits : Str := "0123456789abcdef".toList

/-- The id of the next run: one hexadecimal digit, 32 times. -/
def Mlflow.nextRunId (m : Mlflow) : Str := List.replicate 32 (hexDigits.getD m.runIds.length '0')

def reference.writeRun (w : World) (id : Str) (f : Run → Run) : Except PyExc Unit × World :=
  match w.mlflow.runs id with
  | none => (.error runMissing, w)
  | some run => (.ok (), w.withRun id (f run))

open reference in
/-- One page per listing, all objects written at time 0; no experiment and no run beyond the
sixteenth is ever created. -/
def reply (w : World) : (c : Call) → Option (Ans c × World)
  | .listCommonPrefixes b pre => some (.ok (.last (commonPrefixes '/' (w.s3 b).keys pre)), w)
  | .listObjects b pre => some (.ok (.last (((w.s3 b).under pre).map listed)), w)
  | .deleteObjects b keys => some (.ok ⟨some keys, []⟩, w.deleteKeys b keys)
  | .putObject b key body => some (.ok (), w.setBucket b ((w.s3 b).put key ⟨some 0, body, none⟩))
  | .uploadFile _ b key body hex =>
    some (.ok (), w.setBucket b ((w.s3 b).put key ⟨some 0, body, some hex⟩))
  | .headObject b key => some (match (w.s3 b).entries.find? (·.1 == key) with
      | some e => .ok ⟨none, e.2.body.length⟩
      | none => .error keyMissing, w)
  | .sleep _ => some (.ok (), w)
  | .getExperimentByName name => some (.ok (w.mlflow.experiments name), w)
  | .createExperiment name => match w.mlflow.experiments name with
      | some _ => some (.error experimentExists, w)
      | none => none
  | .createRun expId tags name => match w.mlflow.runs w.mlflow.nextRunId with
      | some _ => none
      | none => if isRunId w.mlflow.nextRunId then
          some (.ok w.mlflow.nextRunId, { w with mlflow := { w.mlflow with
            runs := Function.update w.mlflow.runs w.mlflow.nextRunId
              (some (newRun expId tags name none))
            runIds := w.mlflow.runIds ++ [w.mlflow.nextRunId] } })
        else none
  | .setTag id k v => some (writeRun w id (Run.setTag k v))
  | .logParam id k v => some (writeRun w id (Run.logParam k v))
  | .logMetric id k v => some (writeRun w id (Run.logMetric k v))
  | .setTerminated id s => some (writeRun w id (Run.setStatus s))
  | .getRun id => some (match w.mlflow.runs id with
      | some run => .ok (id, run)
      | none => .error runMissing, w)
  | .searchRuns ids => some (.ok (.last (w.mlflow.matching ids)), w)
  | .deleteRun id => some (writeRun w id Run.setDeleted)

theorem writeRun_spec (w : World) (id : Str) (f : Run → Run) :
    WritesRun w id f (reference.writeRun w id f).1 (reference.writeRun w id f).2 := by
  rw [WritesRun, reference.writeRun]
  cases w.mlflow.runs id <;> exact ⟨rfl, rfl⟩

theorem handle_reply {w : World} {c : Call} {out : Ans c × World} (h : reply w c = some out) :
    Handle w c out.1 out.2 := by
  cases c with
  | listCommonPrefixes b pre => cases h; exact ⟨rfl, _, rfl, rfl⟩
  | listObjects b pre => cases h; exact ⟨rfl, _, rfl, rfl⟩
  | deleteObjects b keys => cases h; exact ⟨rfl, rfl⟩
  | putObject b key body => cases h; exact ⟨rfl, _, rfl⟩
  | uploadFile path b key body hex => cases h; exact ⟨rfl, _, rfl⟩
  | headObject b key =>
    cases h
    refine ⟨rfl, ?_⟩
    cases hf : (w.s3 b).entries.find? (·.1 == key) with
    | some e =>
      have hm := SortedMap.mem_of_entry (List.mem_of_find?_eq_some hf)
      have hk : e.1 = key := by simpa using List.find?_some hf
      rw [hk] at hm
      rw [if_pos hm]
      exact ⟨_, rfl⟩
    | none =>
      rw [if_neg]
      rintro hm
      obtain ⟨v, hv⟩ := SortedMap.mem_def.1 hm
      exact absurd (List.find?_eq_none.1 hf _ hv) (by simp)
  | sleep t => cases h; exact ⟨rfl, rfl⟩
  | getExperimentByName name => cases h; exact ⟨rfl, rfl⟩
  | createExperiment name =>
    simp only [reply] at h
    split at h
    · next id hid =>
      cases h
      simp only [Handle, hid, and_self]
    · cases h
  | createRun expId tags name =>
    simp only [reply] at h
    split at h
    · cases h
    -- the id handed out is fresh, so no run is replaced
    · next hr =>
      split_ifs at h with hid
      cases h
      exact ⟨_, none, hr, hid, rfl, rfl⟩
  | setTag id k v => cases h; exact writeRun_spec ..
  | logParam id k v => cases h; exact writeRun_spec ..
  | logMetric id k v => cases h; exact writeRun_spec ..
  | setTerminated id s => cases h; exact writeRun_spec ..
  | getRun id =>
    cases h
    exact ⟨rfl, rfl⟩
  | searchRuns ids => cases h; exact ⟨rfl, _, rfl, .refl _⟩
  | deleteRun id => cases h; exact writeRun_spec ..

def replyPartly (w : World) (errs : List Key) : (c : Call) → Option (Ans c × World)
  | .deleteObjects b keys => some
      (.ok ⟨some (keys.filter (· ∉ errs)), keys.filter (· ∈ errs)⟩,
        w.deleteKeys b (keys.filter (· ∉ errs)))
  | _ => none

theorem partialDelete_replyPartly {w : World} {errs : List Key} {c : Call} {out : Ans c × World}
    (h : replyPartly w errs c = some out) : PartialDelete w errs c out.1 out.2 := by
  cases c with
  | deleteObjects b keys => cases h; exact ⟨rfl, rfl⟩
  | _ => cases h

/-- The reference services with the fate of each call chosen by `inject`; a call that cannot meet
its fate fails. -/
def serve (inject : Call → Fate) (w : World) (c : Call) : Fate × Ans c × World :=
  match inject c with
  | .ok => match reply w c with
    | some out => (.ok, out)
    | none => (.fail unavailable, .error (.service unavailable), w)
  | .lost e => match reply w c with
    | some out => (.lost e, .error (.service e), out.2)
    | none => (.fail unavailable, .error (.service unavailable), w)
  | .perKey errs => match replyPartly w errs c with
    | some out => (.perKey errs, out)
    | none => (.fail unavailable, .error (.service unavailable), w)
  | .fail e => (.fail e, .error (.service e), w)

theorem serves_serve {F : Call → Fate → Prop} {inject : Call → Fate} {w : World} {c : Call}
    (h : F c (serve inject w c).1) :
    Serves F w c (serve inject w c).1 (serve inject w c).2.1 (serve inject w c).2.2 := by
  refine ⟨h, ?_⟩
  clear h
  cases hi : inject c with
  | ok =>
    cases hr : reply w c with
    | none => simp [serve, hi, hr]
    | some out => simpa [serve, hi, hr] using handle_reply hr
  | lost e =>
    cases hr : reply w c with
    | none => simp [serve, hi, hr]
    | some out => simpa [serve, hi, hr] using ⟨out.1, handle_reply hr⟩
  | perKey errs =>
    cases hr : replyPartly w errs c with
    | none => simp [serve, hi, hr]
    | some out => simpa [serve, hi, hr] using partialDelete_replyPartly hr
  | fail e => simp [serve, hi]

/-- A bucket with empty objects at the given keys, all written at time 0. -/
def Bucket.ofKeys (keys : List Key) : Bucket :=
  keys.foldl (fun m k => m.put k ⟨some 0, [], none⟩) .empty

/-- A platform with one bucket, some experiments and some runs. -/
def World.of (bucket : Str) (keys : List Key) (experiments : List (Str × Str))
    (runs : List (Str × Run)) : World where
  s3 := Function.update (fun _ => .empty) bucket (.ofKeys keys)
  mlflow := ⟨fun name => experiments.lookup name, fun id => runs.lookup id, runs.map Prod.fst⟩

def sampleBucket : BucketName :=
  ⟨['b'], by decide, fun c hc => by rw [List.mem_singleton.1 hc]; decide⟩

/-- Sixteen run ids, one for each hexadecimal digit. -/
def sampleRunId (c : Char) : Str := List.replicate 32 c

def sampleRunPrefix (c : Char) : Key := runPrefix ['a'] (sampleRunId c)

def sampleArtifact : Key := sampleRunPrefix '0' ++ ['t']

/-- The run of a program against the reference services. -/
abbrev simulate {α : Type} (inject : Call → Fate) (p : Action α) (w : World) :
    List (Step Call Ans Fate World) × Except PyExc α × World := run (serve inject) p w

theorem exec_simulate {F : Call → Fate → Prop} {inject : Call → Fate} {α : Type} (p : Action α)
    (w : World) (h : ∀ w c, F c (serve inject w c).1) : Exec (Serves F) p w
      (simulate inject p w).1 (simulate inject p w).2.1 (simulate inject p w).2.2 :=
  exec_run fun w c => serves_serve (h w c)

/-- A program that returns when it is simulated has an execution that returns. -/
theorem exec_of_isOk {F : Call → Fate → Prop} {inject : Call → Fate} {α : Type} {p : Action α}
    {w : World} (hF : ∀ w c, F c (serve inject w c).1)
    (h : (simulate inject p w).2.1.isOk = true) :
    ∃ tr a w', Exec (Serves F) p w tr (.ok a) w' := by
  have hexec := exec_simulate p w hF
  cases hr : (simulate inject p w).2.1 with
  | error e =>
    rw [hr] at h
    cases h
  | ok a =>
    rw [hr] at hexec
    exact ⟨_, a, _, hexec⟩

end Accel.Model
