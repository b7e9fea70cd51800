import AccelProf.Model.Services

/-! Reads and writes of a run in MLflow (`mlflow_io.py`): open content, the completeness contract
and the record handed to consumers. -/

namespace Accel.Model
open Data Program Prog

/-- A value a caller may put in a content dict. Those that are neither numbers nor strings matter
only through what `str` makes of them. -/
inductive PyVal where
  | none
  | bool (b : Bool)
  | int (i : ℤ)
  | float (x : PyFloat) (text : Str)
  | str (s : Str)
  | obj (text : Str)

/-- `str(v)`, without the limit on the digits of an integer. -/
def PyVal.toStr : PyVal → Str
  | .none => "None".toList
  | .bool b => if b then "True".toList else "False".toList
  | .int i => (toString i).toList
  | .float _ text => text
  | .str s => s
  | .obj text => text

/-- The integer of a double nearest to `n`, ties to even. -/
def roundToDouble (n : ℕ) : ℕ :=
  if n < 2 ^ 53 then n
  else
    let e := Nat.log2 n - 52
    let q := n / 2 ^ e
    let r := n % 2 ^ e
    if 2 * r > 2 ^ e ∨ 2 * r = 2 ^ e ∧ q % 2 = 1 then (q + 1) * 2 ^ e else q * 2 ^ e

/-- `float(v)` for the values that pass the type check; `none` is an `OverflowError`. -/
def PyVal.toFloat : PyVal → Option PyFloat
  | .int i =>
    let m := roundToDouble i.natAbs
    if 2 ^ 1024 ≤ m then Option.none else some (.finite (i.sign * m))
  | .float x _ => some x
  | _ => Option.none

def PyFloat.isFinite : PyFloat → Bool
  | .finite _ => true
  | _ => false

/-- A `dict` with string keys, in insertion order. -/
structure PyDict where
  items : List (Str × PyVal)
  nodup : (items.map Prod.fst).Nodup

/-- `(d or {}).items()` -/
def dictItems (d : Option PyDict) : List (Str × PyVal) := (d.map PyDict.items).getD []

def checkMetric (item : Str × PyVal) : Except PyExc Unit :=
  match item.2.toFloat with
  | some x => if x.isFinite then .ok () else .error (.badMetric item.1)
  | none => .error (.badMetric item.1)

def checkTag (item : Str × PyVal) : Except PyExc Unit :=
  if isReserved item.1 then .error (.reservedTag item.1) else .ok ()

def validateContent (metrics tags : Option PyDict) : Except PyExc Unit := do
  (dictItems metrics).forM checkMetric
  (dictItems tags).forM checkTag

/-- `_experiment_id(alias, create)` -/
def experimentId (aliasName : Str) (create : Bool) : Action (Option Str) := do
  match ← request (.getExperimentByName aliasName) with
  | some id => return some id
  | none =>
    if !create then return none
    else
      match ← (request (.createExperiment aliasName)).attempt with
      | .ok id => return some id
      | .error e =>
        -- another producer may have created it first
        match ← request (.getExperimentByName aliasName) with
        | none => raise e
        | some id => return some id

def createRun (i : Identity) : Action Str := do
  let expId ← experimentId i.aliasName true
  request (.createRun (expId.getD []) (creationTags i) (runName i))

/-- Content first, then `artifacts_uri`, and `FINISHED` last. -/
def finalizeRun (runId uri : Str) (metrics params tags : Option PyDict) : Action Unit := do
  ofExcept (validateContent metrics tags)
  (dictItems tags).foldlM (fun _ kv => request (.setTag runId kv.1 kv.2.toStr)) ()
  (dictItems params).foldlM (fun _ kv => request (.logParam runId kv.1 kv.2.toStr)) ()
  (dictItems metrics).foldlM
    (fun _ kv => request (.logMetric runId kv.1 (kv.2.toFloat.getD .nan))) ()
  let _ ← request (.setTag runId artifactsUriTag uri)
  request (.setTerminated runId .finished)

def failRun (runId : Str) : Action Unit := do
  let _ ← (request (.setTerminated runId .failed)).attempt
  return ()

structure RunRef where
  runId : Str
  status : Option RunStatus
  aliasName : Option Str
  chip : Option Str
  region : Option Str
  workloadId : Option Str
  artifactsUri : Option Str
  startTime : Option Int
  lifecycleStage : LifecycleStage
  metrics : Str → Option PyFloat
  params : Str → Option Str
  tags : Str → Option Str

def RunRef.isFinished (r : RunRef) : Bool := r.status = some .finished
def RunRef.isDeleted (r : RunRef) : Bool := r.lifecycleStage = .deleted

def toRef (run : Str × Run) : RunRef where
  runId := run.1
  status := run.2.status
  aliasName := run.2.tags aliasTag
  chip := run.2.tags chipTag
  region := run.2.tags regionTag
  workloadId := run.2.tags workloadTag
  artifactsUri := run.2.tags artifactsUriTag
  startTime := run.2.startTime
  lifecycleStage := run.2.lifecycleStage
  metrics := run.2.metrics
  params := run.2.params
  tags := run.2.tags

def resolveAlias (aliasName : Str) : Action (List RunRef) := do
  match ← experimentId aliasName false with
  | none => raise (.noExperiment aliasName)
  | some expId =>
    let pages ← request (.searchRuns [expId])
    return pages.collect.map toRef

def resolveRun (runId : Str) : Action RunRef := do
  let run ← request (.getRun runId)
  return toRef run

def alreadyGone : List Str :=
  [notFoundCode, "RESOURCE_NOT_FOUND".toList, "NOT_FOUND".toList]

def deleteRun (runId : Str) : Action Unit := do
  match ← (request (.deleteRun runId)).attempt with
  | .ok _ => return ()
  | .error e => if e.errorCodeAttr.any (· ∈ alreadyGone) then return () else raise e

end Accel.Model
