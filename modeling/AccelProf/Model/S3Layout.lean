import AccelProf.Data.Slices
import AccelProf.Model.LocalFs
import AccelProf.Model.S3Uri
import AccelProf.Model.Services

/-! The transfers of `s3_layout.py`: verified upload, listing, deletion and the retention marker. -/

namespace Accel.Model
open Data Program Prog

def nonRetryable : List Str :=
  ["AccessDenied".toList, "403".toList, "InvalidAccessKeyId".toList,
    "SignatureDoesNotMatch".toList, "NoSuchBucket".toList]
def maxAttempts : ℕ := 5
def baseDelay : Seconds := 1 / 2
def deleteBatch : ℕ := 1000
def retentionMarker : Str := ".retention-keep".toList

/-- One attempt: send the file, then confirm what landed. -/
def uploadOnce (fs : LocalFs) (localPath bucket key : Str) : Action Str := do
  let content := fs.read localPath
  let (localHex, localB64) := fs.sha256 content
  let checkSize (head : Head) : Action Str :=
    if head.contentLength ≠ content.length then
      raise (.sizeMismatch key head.contentLength content.length)
    else return localHex
  let _ ← request (.uploadFile localPath bucket key content localHex)
  let head ← request (.headObject bucket key)
  match head.checksumSHA256 with
  | none => checkSize head
  | some remote =>
    -- a composite checksum "<b64>-<parts>" is not the digest of the whole file
    if '-' ∈ remote then checkSize head
    else if remote ≠ localB64 then raise (.checksumMismatch key remote localB64)
    else return localHex

def PyExc.isVerification : PyExc → Bool
  | .checksumMismatch .. => true
  | .sizeMismatch .. => true
  | _ => false

def isNonRetryable (e : PyExc) : Bool := e.responseCode.any (· ∈ nonRetryable)

/-- The retry loop from attempt number `attempt` on, with `n` attempts left. -/
def uploadAttempts (fs : LocalFs) (localPath bucket key : Str) :
    ℕ → ℕ → Option PyExc → Action Str
  | 0, _, lastErr => raise (.uploadFailed maxAttempts lastErr)
  | n + 1, attempt, _ => do
    match ← (uploadOnce fs localPath bucket key).attempt with
    | .ok hex => return hex
    | .error e =>
      if e.isVerification || isNonRetryable e then raise e
      else
        if attempt < maxAttempts then
          let _ ← request (.sleep (baseDelay * 2 ^ (attempt - 1)))
          uploadAttempts fs localPath bucket key n (attempt + 1) (some e)
        else uploadAttempts fs localPath bucket key n (attempt + 1) (some e)

def uploadVerified (fs : LocalFs) (localPath bucket key : Str) : Action Str :=
  if !fs.pathExists localPath then raise (.fileNotFound localPath)
  else uploadAttempts fs localPath bucket key maxAttempts 1 none

/-- One planned file; `seen` of the source holds the same pairs as `planned`. -/
def planFile (pre : Key) (planned : List (Str × Key)) (file : Str × Str) :
    Except PyExc (List (Str × Key)) :=
  let key := pre ++ file.2
  match planned.find? (·.2 == key) with
  | some first => .error (.keyCollision first.1 file.1 key)
  | none => .ok (planned ++ [(file.1, key)])

def planArtifacts (fs : LocalFs) (pre : Key) (artifacts : List Str) :
    Except PyExc (List (Str × Key)) :=
  artifacts.foldlM (fun planned path => do
    let files ← fs.iterFiles path
    files.foldlM (planFile pre) planned) []

structure Uploaded where
  uri : Str
  objects : List Key
  count : ℕ

def uploadArtifacts (fs : LocalFs) (bucket aliasName runId : Str) (artifacts : Option (List Str)) :
    Action Uploaded := do
  let planned ← ofExcept (planArtifacts fs (runPrefix aliasName runId) (artifacts.getD []))
  let objects ← planned.foldlM (fun objects file => do
    let _ ← uploadVerified fs file.1 bucket file.2
    return objects ++ [file.2]) []
  return ⟨artifactsUri bucket aliasName runId, objects, objects.length⟩

def listPrefix (uri : Str) : Action (List Key) := do
  let parsed ← ofExcept (parseS3Uri uri)
  let pages ← request (.listObjects parsed.bucket parsed.key)
  return pages.collect.map Listed.key

def deleteOne (bucket : Str) (deleted : ℕ) (batch : List Key) : Action ℕ := do
  let resp ← request (.deleteObjects bucket batch)
  match resp.errors with
  | first :: _ => raise (.deleteErrors resp.errors.length first)
  | [] => return deleted + (resp.deleted.getD batch).length

def deletePrefix (uri : Str) : Action ℕ := do
  let parsed ← ofExcept (parseS3Uri uri)
  if parsed.key = [] then raise (.emptyDelete uri)
  else
    let keys ← listPrefix uri
    (slices deleteBatch keys).foldlM (deleteOne parsed.bucket) 0

def markerKey (uri : Str) : Except PyExc (Str × Key) :=
  match parseS3Uri uri with
  | .error e => .error e
  | .ok parsed =>
    if parsed.key = [] then .error (.emptyMarker uri)
    else .ok (parsed.bucket, rstrip '/' parsed.key ++ '/' :: retentionMarker)

def writeRetentionMarker (uri : Str) : Action Key := do
  let (bucket, key) ← ofExcept (markerKey uri)
  let _ ← request (.putObject bucket key [])
  return key

end Accel.Model
