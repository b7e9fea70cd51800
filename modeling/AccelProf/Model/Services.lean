import AccelProf.Data.Pages
import AccelProf.Data.SortedMap
import AccelProf.Data.Delimited
import AccelProf.Program.Interaction
import AccelProf.Model.Ids

/-! The two services the code talks to, an S3 object store and an MLflow tracking server: their
state, the calls made to them and the answers each call may get. -/

namespace Accel.Model
open Data Program

abbrev Key := Str

structure Obj where
  lastModified : Option Seconds
  body : Bytes
  sha256Hex : Option Str

abbrev Bucket := SortedMap Key Obj

/-- The statuses MLflow writes; `unknown` is any other string in the field. -/
inductive RunStatus where
  | running
  | scheduled
  | finished
  | failed
  | killed
  | unknown (name : Str)
  deriving DecidableEq

inductive LifecycleStage where
  | active
  | deleted
  deriving DecidableEq

structure Run where
  experimentId : Str
  status : Option RunStatus
  lifecycleStage : LifecycleStage
  startTime : Option Int
  tags : Str → Option Str
  params : Str → Option Str
  metrics : Str → Option PyFloat

structure Mlflow where
  /-- experiment ids by name -/
  experiments : Str → Option Str
  runs : Str → Option Run
  /-- run ids in the order of their creation -/
  runIds : List Str

structure World where
  s3 : Str → Bucket
  mlflow : Mlflow

namespace World

def setBucket (w : World) (b : Str) (m : Bucket) : World :=
  { w with s3 := Function.update w.s3 b m }

def withRun (w : World) (id : Str) (run : Run) : World :=
  { w with mlflow := { w.mlflow with runs := Function.update w.mlflow.runs id (some run) } }

def deleteKeys (w : World) (b : Str) (keys : List Key) : World :=
  w.setBucket b ((w.s3 b).restrict (· ∉ keys))

@[simp] theorem setBucket_mlflow (w : World) (b : Str) (m : Bucket) :
    (w.setBucket b m).mlflow = w.mlflow := rfl
@[simp] theorem setBucket_s3_self (w : World) (b : Str) (m : Bucket) :
    (w.setBucket b m).s3 b = m := by simp [setBucket]
theorem setBucket_s3_ne {w : World} {b b' : Str} {m : Bucket} (h : b' ≠ b) :
    (w.setBucket b m).s3 b' = w.s3 b' := by simp [setBucket, h]
@[simp] theorem deleteKeys_mlflow (w : World) (b : Str) (keys : List Key) :
    (w.deleteKeys b keys).mlflow = w.mlflow := rfl
@[simp] theorem deleteKeys_s3_self (w : World) (b : Str) (keys : List Key) :
    (w.deleteKeys b keys).s3 b = (w.s3 b).restrict (· ∉ keys) := setBucket_s3_self ..
@[simp] theorem withRun_s3 (w : World) (id : Str) (run : Run) : (w.withRun id run).s3 = w.s3 := rfl
@[simp] theorem withRun_runs_self (w : World) (id : Str) (run : Run) :
    (w.withRun id run).mlflow.runs id = some run := by simp [withRun]
theorem withRun_runs_ne {w : World} {id id' : Str} {run : Run} (h : id' ≠ id) :
    (w.withRun id run).mlflow.runs id' = w.mlflow.runs id' := by simp [withRun, h]

theorem withRun_withRun (w : World) (id : Str) (run run' : Run) :
    (w.withRun id run).withRun id run' = w.withRun id run' := by simp [withRun]
theorem withRun_self {w : World} {id : Str} {run : Run} (h : w.mlflow.runs id = some run) :
    w.withRun id run = w := by rw [withRun, ← h, Function.update_eq_self]

end World

/-- One entry of `Contents`. -/
structure Listed where
  key : Key
  lastModified : Option Seconds

structure DeleteResult where
  deleted : Option (List Key)
  errors : List Key

structure Head where
  checksumSHA256 : Option Str
  contentLength : Nat

inductive Call where
  | listCommonPrefixes (bucket : Str) (pre : Key)
  | listObjects (bucket : Str) (pre : Key)
  | deleteObjects (bucket : Str) (keys : List Key)
  | putObject (bucket : Str) (key : Key) (body : Bytes)
  | uploadFile (localPath : Str) (bucket : Str) (key : Key) (body : Bytes) (sha256Hex : Str)
  | headObject (bucket : Str) (key : Key)
  | sleep (seconds : Seconds)
  | getExperimentByName (name : Str)
  | createExperiment (name : Str)
  | createRun (experimentId : Str) (tags : List (Str × Str)) (runName : Str)
  | setTag (runId key value : Str)
  | logParam (runId key value : Str)
  | logMetric (runId key : Str) (value : PyFloat)
  | setTerminated (runId : Str) (status : RunStatus)
  | getRun (runId : Str)
  | searchRuns (experimentIds : List Str)
  | deleteRun (runId : Str)

@[reducible] def Resp : Call → Type
  | .listCommonPrefixes .. => Pages Key
  | .listObjects .. => Pages Listed
  | .deleteObjects .. => DeleteResult
  | .putObject .. => Unit
  | .uploadFile .. => Unit
  | .headObject .. => Head
  | .sleep _ => Unit
  | .getExperimentByName _ => Option Str
  | .createExperiment _ => Str
  | .createRun .. => Str
  | .setTag .. => Unit
  | .logParam .. => Unit
  | .logMetric .. => Unit
  | .setTerminated .. => Unit
  | .getRun _ => Str × Run
  | .searchRuns _ => Pages (Str × Run)
  | .deleteRun _ => Unit

@[reducible] def Ans (c : Call) : Type := Except PyExc (Resp c)

abbrev Action := Prog Call Ans PyExc

/-- One call to a service; an exception it is answered with propagates. -/
def request (c : Call) : Action (Resp c) := Prog.perform c

def notFoundCode : Str := "RESOURCE_DOES_NOT_EXIST".toList

/-- What MLflow raises for a run it does not have. -/
def runMissing : PyExc := .service ⟨some notFoundCode, none⟩
def experimentExists : PyExc := .service ⟨some "RESOURCE_ALREADY_EXISTS".toList, none⟩
def keyMissing : PyExc := .service ⟨none, some ⟨some ⟨some "404".toList⟩⟩⟩

/-- The objects whose key starts with `pre`, in listing order. -/
def Bucket.under (m : Bucket) (pre : Key) : List (Key × Obj) :=
  m.entries.filter fun e => pre.isPrefixOf e.1

def listed (e : Key × Obj) : Listed := ⟨e.1, e.2.lastModified⟩

def newRun (experimentId : Str) (tags : List (Str × Str)) (runName : Str)
    (startTime : Option Int) : Run where
  experimentId := experimentId
  status := some .running
  lifecycleStage := .active
  startTime := startTime
  tags := fun k => ((("mlflow.runName".toList), runName) :: tags).lookup k
  params := fun _ => none
  metrics := fun _ => none

/-- A write to one run: refused when there is no such run. -/
def WritesRun (w : World) (id : Str) (f : Run → Run) (a : Except PyExc Unit) (w' : World) : Prop :=
  match w.mlflow.runs id with
  | none => a = .error runMissing ∧ w' = w
  | some run => a = .ok () ∧ w' = w.withRun id (f run)

/-- The runs a search over `ids` may return: active ones only. -/
def Mlflow.matching (m : Mlflow) (ids : List Str) : List (Str × Run) :=
  m.runIds.filterMap fun id => (m.runs id).bind fun run =>
    if run.experimentId ∈ ids ∧ run.lifecycleStage = .active then some (id, run) else none

def Run.setTag (k v : Str) (r : Run) : Run := { r with tags := Function.update r.tags k (some v) }
def Run.logParam (k v : Str) (r : Run) : Run :=
  { r with params := Function.update r.params k (some v) }
def Run.logMetric (k : Str) (v : PyFloat) (r : Run) : Run :=
  { r with metrics := Function.update r.metrics k (some v) }
def Run.setStatus (s : RunStatus) (r : Run) : Run := { r with status := some s }
def Run.setDeleted (r : Run) : Run := { r with lifecycleStage := .deleted }

/-- The answers and effects of a service that works. The server chooses page splits, timestamps,
fresh ids and what a head request reports. -/
def Handle (w : World) : (c : Call) → Ans c → World → Prop
  | .listCommonPrefixes b pre, a, w' => w' = w ∧
      ∃ pages, a = .ok pages ∧ pages.toList = commonPrefixes '/' (w.s3 b).keys pre
  | .listObjects b pre, a, w' => w' = w ∧
      ∃ pages, a = .ok pages ∧ pages.toList = ((w.s3 b).under pre).map listed
  | .deleteObjects b keys, a, w' => a = .ok ⟨some keys, []⟩ ∧ w' = w.deleteKeys b keys
  | .putObject b key body, a, w' => a = .ok () ∧
      ∃ t, w' = w.setBucket b ((w.s3 b).put key ⟨t, body, none⟩)
  | .uploadFile _ b key body hex, a, w' => a = .ok () ∧
      ∃ t, w' = w.setBucket b ((w.s3 b).put key ⟨t, body, some hex⟩)
  | .headObject b key, a, w' => w' = w ∧
      if key ∈ w.s3 b then ∃ head, a = .ok head else a = .error keyMissing
  | .sleep _, a, w' => a = .ok () ∧ w' = w
  | .getExperimentByName name, a, w' => a = .ok (w.mlflow.experiments name) ∧ w' = w
  | .createExperiment name, a, w' => match w.mlflow.experiments name with
      | some _ => a = .error experimentExists ∧ w' = w
      | none => ∃ id, (∀ n, w.mlflow.experiments n ≠ some id) ∧ a = .ok id ∧
          w' = { w with mlflow := { w.mlflow with
            experiments := Function.update w.mlflow.experiments name (some id) } }
  | .createRun expId tags name, a, w' => ∃ id start, w.mlflow.runs id = none ∧
      isRunId id = true ∧ a = .ok id ∧
      w' = { w with mlflow := { w.mlflow with
        runs := Function.update w.mlflow.runs id (some (newRun expId tags name start))
        runIds := w.mlflow.runIds ++ [id] } }
  | .setTag id k v, a, w' => WritesRun w id (Run.setTag k v) a w'
  | .logParam id k v, a, w' => WritesRun w id (Run.logParam k v) a w'
  | .logMetric id k v, a, w' => WritesRun w id (Run.logMetric k v) a w'
  | .setTerminated id s, a, w' => WritesRun w id (Run.setStatus s) a w'
  | .getRun id, a, w' => w' = w ∧ a = match w.mlflow.runs id with
      | some run => .ok (id, run)
      | none => .error runMissing
  | .searchRuns ids, a, w' => w' = w ∧
      ∃ pages, a = .ok pages ∧ pages.toList.Perm (w.mlflow.matching ids)
  | .deleteRun id, a, w' => WritesRun w id Run.setDeleted a w'

/-- What the environment does to one call: serve it, serve a batch delete except for some keys,
drop the request, or drop the response after the effect. -/
inductive Fate where
  | ok
  | perKey (errors : List Key)
  | fail (e : ServiceError)
  | lost (e : ServiceError)

/-- A batch delete in which the keys in `errs` end up in `Errors`. -/
def PartialDelete (w : World) (errs : List Key) : (c : Call) → Ans c → World → Prop
  | .deleteObjects b keys, a, w' =>
      a = .ok ⟨some (keys.filter (· ∉ errs)), keys.filter (· ∈ errs)⟩ ∧
      w' = w.deleteKeys b (keys.filter (· ∉ errs))
  | _, _, _ => False

/-- The services under a fault model: `F c l` says that call `c` may meet fate `l`. -/
def Serves (F : Call → Fate → Prop) : Service Call Ans Fate World := fun w c l a w' =>
  F c l ∧ match l with
    | .ok => Handle w c a w'
    | .perKey errs => PartialDelete w errs c a w'
    | .fail e => a = .error (.service e) ∧ w' = w
    | .lost e => a = .error (.service e) ∧ ∃ a', Handle w c a' w'

def Reliable : Call → Fate → Prop := fun _ l => l = .ok

theorem Serves.mono {F F' : Call → Fate → Prop} (h : ∀ c l, F c l → F' c l) {w w' : World}
    {c : Call} {l : Fate} {a : Ans c} (hs : Serves F w c l a w') : Serves F' w c l a w' :=
  ⟨h c l hs.1, hs.2⟩

end Accel.Model
