import AccelProf.Model.FileSystem
import AccelProf.Model.Store

/-! The consumer's side: artifacts read in place on a mounted bucket, or copied to a local
directory. -/

namespace Accel.Model
open Data Program Prog

/-- The calls of a copy: those of the store, and two on the machine it runs on. -/
inductive TransferCall where
  | s3 (c : Call)
  | makedirs (path : Str)
  | downloadFile (bucket : Str) (key : Key) (localPath : Str)

@[reducible] def TransferResp : TransferCall → Type
  | .s3 c => Resp c
  | .makedirs _ => Unit
  | .downloadFile .. => Unit

@[reducible] def TransferAns (c : TransferCall) : Type := Except PyExc (TransferResp c)

abbrev Transfer := Prog TransferCall TransferAns PyExc

def transfer (c : TransferCall) : Transfer (TransferResp c) := Prog.perform c

/-- A program of the store as a part of a copy. -/
def asTransfer {α : Type} (p : Action α) : Transfer α := p.lift TransferCall.s3 fun _ a => a

/-- One round of the loop of `download_prefix`. -/
def downloadKey (cwd : Str) (parsed : ParsedS3Uri) (destRoot : Str) (written : List Str)
    (key : Key) :
    Transfer (List Str) :=
  let rel := key.drop parsed.key.length
  -- the prefix itself, or a nested directory placeholder
  if rel = [] ∨ rel.getLast? = some '/' then return written
  else
    let localPath := realpath cwd (pathJoin destRoot rel)
    if localPath ≠ destRoot ∧ ¬ (destRoot ++ ['/']) <+: localPath then raise (.escapesDest key)
    else do
      transfer (.makedirs (if dirname localPath = [] then dot else dirname localPath))
      transfer (.downloadFile parsed.bucket key localPath)
      return written ++ [localPath]

def downloadPrefix (cwd uri destDir : Str) : Transfer (List Str) := do
  let parsed ← ofExcept (parseS3Uri uri)
  let destRoot := realpath cwd destDir
  let keys ← asTransfer (listPrefix uri)
  keys.foldlM (downloadKey cwd parsed destRoot) []

def localDirForMount (uri mountBase : Str) (expectedBucket : Option Str) : Except PyExc Str :=
  match parseS3Uri uri with
  | .error e => .error e
  | .ok parsed =>
    match expectedBucket with
    | none => .ok (pathJoin mountBase parsed.key)
    | some expected =>
      if parsed.bucket ≠ expected then .error (.otherBucket parsed.bucket expected)
      else .ok (pathJoin mountBase parsed.key)

def locate (store : Store) (run : RunRef) : Except PyExc Str :=
  let mountBase := store.mountBase.getD []
  let uri := run.artifactsUri.getD []
  if mountBase = [] then .error .noMountBase
  else if uri = [] then .error (.noArtifactsUri run.runId)
  else localDirForMount uri mountBase (some store.traceBucket.name)

def download (cwd : Str) (run : RunRef) (destDir : Str) : Transfer (List Str) :=
  let uri := run.artifactsUri.getD []
  if uri = [] then raise (.noArtifactsUri run.runId)
  else do
    transfer (.makedirs destDir)
    downloadPrefix cwd uri destDir

/-- What `os.makedirs(p, exist_ok=True)` does on the machine. -/
def MakesDirs (cwd p : Str) (d : Dir) (a : Except PyExc Unit) (d' : Dir) : Prop :=
  d' = (makedirs cwd p d).1 ∧ a = if (makedirs cwd p d).2 then .ok () else .error (.osError p)

/-- What a finished `download_file` does on the machine. -/
def Downloads (cwd : Str) (m : Bucket) (key : Key) (p : Str) (d : Dir) (a : Except PyExc Unit)
    (d' : Dir) :
    Prop :=
  match m.get key with
  | none => a = .error keyMissing ∧ d' = d
  | some obj => match d.write obj.body (realComponents cwd p) with
    | none => a = .error (.osError p) ∧ d' = d
    | some d₁ => a = .ok () ∧ d' = d₁

/-- A call on the machine itself, which does `works` or fails without effect. -/
def Locally (works : Except PyExc Unit → Dir → Prop) (d : Dir) (l : Fate) (a : Except PyExc Unit)
    (d' : Dir) : Prop :=
  match l with
  | .ok => works a d'
  | .fail e => a = .error (.service e) ∧ d' = d
  | _ => False

/-- The services and the machine under a fault model; `cwd` is where the process runs. -/
def Serving (cwd : Str) (F : TransferCall → Fate → Prop) :
    Service TransferCall TransferAns Fate (World × Dir) := fun s c l a s' =>
  match c, a with
  | .s3 c, a => Serves (fun c => F (.s3 c)) s.1 c l a s'.1 ∧ s'.2 = s.2
  | .makedirs p, a => F (.makedirs p) l ∧ s'.1 = s.1 ∧ Locally (MakesDirs cwd p s.2) s.2 l a s'.2
  | .downloadFile b key p, a => F (.downloadFile b key p) l ∧ s'.1 = s.1 ∧
      Locally (Downloads cwd (s.1.s3 b) key p s.2) s.2 l a s'.2

end Accel.Model
