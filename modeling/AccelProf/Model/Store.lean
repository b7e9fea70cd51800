import AccelProf.Model.MlflowIO
import AccelProf.Model.S3Layout

/-! The platform API (`store.py`). -/

namespace Accel.Model
open Data Program Prog

structure Store where
  traceBucket : BucketName
  mountBase : Option Str
  namespaceName : Option Str

/-- What a producer passes to `log`. -/
structure LogArgs where
  identity : Identity
  metrics : Option PyDict
  params : Option PyDict
  tags : Option PyDict
  artifacts : Option (List Str)

/-- `{NAMESPACE_TAG: self.namespace, **(tags or {})}` unless the caller gave a namespace. -/
def Store.withNamespace (store : Store) (tags : Option PyDict) : Option PyDict :=
  match store.namespaceName with
  | none => tags
  | some ns =>
    if ns = [] then tags
    else if h : namespaceTag ∈ (dictItems tags).map Prod.fst then tags
    else some ⟨(namespaceTag, .str ns) :: dictItems tags, List.nodup_cons.2 ⟨h, by
      cases tags with
      | none => exact List.nodup_nil
      | some d => exact d.nodup⟩⟩

/-- The body of the `try` in `log`. -/
def uploadAndFinalize (store : Store) (fs : LocalFs) (args : LogArgs) (runId : Str) :
    Action Unit := do
  let up ← uploadArtifacts fs store.traceBucket.name args.identity.aliasName runId args.artifacts
  finalizeRun runId up.uri args.metrics args.params (store.withNamespace args.tags)

/-- The `except` branch of `log`, up to its `raise`. -/
def cleanUp (uri runId : Str) : Action Unit := do
  let _ ← (deletePrefix uri).attempt
  failRun runId

def log (store : Store) (fs : LocalFs) (args : LogArgs) : Action Str := do
  ofExcept (validateIdentity args.identity)
  ofExcept (validateContent args.metrics (store.withNamespace args.tags))
  let runId ← createRun args.identity
  match ← (uploadAndFinalize store fs args runId).attempt with
  | .ok _ => return runId
  | .error e =>
    cleanUp (artifactsUri store.traceBucket.name args.identity.aliasName runId) runId
    raise e

inductive By where
  | alias_
  | id
  | other (text : Str)

/-- What a consumer gets by default. -/
def isUsable (r : RunRef) : Bool := r.isFinished && !r.isDeleted

def resolve (aliasOrId : Str) (by_ : By) (includeUnfinished : Bool) : Action (List RunRef) := do
  let runs ← match by_ with
    | .id => do pure [← resolveRun aliasOrId]
    | .alias_ => resolveAlias aliasOrId
    | .other text => raise (.badBy text)
  return if includeUnfinished then runs else runs.filter fun r => r.isFinished && !r.isDeleted

def hold (run : RunRef) : Action Key :=
  match run.artifactsUri with
  | none => raise (.noArtifactsUri run.runId)
  | some uri => if uri = [] then raise (.noArtifactsUri run.runId) else writeRetentionMarker uri

def purge (run : RunRef) (deleteMlflowRun : Bool) : Action ℕ := do
  let deleted ← match run.artifactsUri with
    | none => pure 0
    | some uri => if uri = [] then pure 0 else deletePrefix uri
  if deleteMlflowRun then
    deleteRun run.runId
    return deleted
  else return deleted

end Accel.Model
