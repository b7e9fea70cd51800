import AccelProf.Model.Analyzers
import AccelProf.Model.Download

/-! The analysis service (`service.py`): from a run id, or an alias and a chip, to the files of the
run. -/

namespace Accel.Model
open Data Program Prog

/-- An optional string that counts as given. -/
def truthy : Option Str → Option Str
  | some [] => none
  | s => s

/-- `runs[0]`, or an exception when there is none. -/
def firstRun (runId : Str) : List RunRef → Action RunRef
  | [] => raise (.runNotUsable runId)
  | run :: _ => return run

def runById (runId : Str) : Action RunRef := do
  let runs ← resolve runId .id false
  firstRun runId runs

/-- `getattr(r, "start_time", 0) or 0` -/
def RunRef.startKey (r : RunRef) : Int := r.startTime.getD 0

/-- `max` by the start time of a non-empty list: the first of the largest. -/
def latestRun (first : RunRef) (rest : List RunRef) : RunRef :=
  rest.foldl (fun best r => if best.startKey < r.startKey then r else best) first

def pickRun (aliasName chip : Str) : List RunRef → Action RunRef
  | [] => raise (.noChipRun chip aliasName)
  | first :: rest => return latestRun first rest

def selectRun (runId aliasName chip : Option Str) : Action RunRef :=
  match truthy runId, truthy aliasName, truthy chip with
  | some runId, _, _ => runById runId
  | none, some aliasName, some chip => do
    let runs ← resolve aliasName .alias_ false
    pickRun aliasName chip (runs.filter (·.chip = some chip))
  | _, _, _ => raise .noSelector

def profileModeTag : Str := "profile_mode".toList
def profiledTag : Str := "profiled".toList

def stagedDir (store : Store) (fs : FileSystem) (run : RunRef) : Except PyExc Str := do
  let dir ← locate store run
  if fs.toLocalFs.isdir dir then return dir
  else
    match truthy store.mountBase with
    | none => .error (.mountAbsent store.mountBase)
    | some base =>
      if !fs.toLocalFs.isdir base then .error (.mountAbsent (some base))
      else if run.tags profileModeTag = some "none".toList ∨
        run.tags profiledTag = some "false".toList then
        .error (.recordedWithoutProfiler run.runId (run.tags profileModeTag) dir base)
      else .error (.nothingStaged base dir)

/-- What `resolve_artifacts` returns. -/
structure ResolvedArtifacts where
  runId : Str
  chip : Option Str
  dir : Str
  pattern : Str
  found : List Str

/-- The files of a selected run. -/
def artifactsOf (store : Store) (fs : FileSystem) (pattern : Str) (run : RunRef) :
    Except PyExc ResolvedArtifacts := do
  let dir ← stagedDir store fs run
  let found ← findMatches fs dir pattern
  return ⟨run.runId, run.chip, dir, pattern, found⟩

def resolveArtifacts (store : Store) (fs : FileSystem) (runId aliasName chip : Option Str)
    (pattern : Str) :
    Action ResolvedArtifacts := do
  let run ← selectRun runId aliasName chip
  ofExcept (artifactsOf store fs pattern run)

/-- What `stage` returns. -/
structure Staged where
  runId : Str
  chip : Option Str
  dir : Str
  files : List Str
  count : ℕ

/-- The files of a walk as `stage` names them. -/
def walkedFiles (fs : LocalFs) (dir : Str) : List Str :=
  (fs.walk dir).flatMap fun entry => entry.2.map fun name => fs.relpath (pathJoin entry.1 name) dir

def stageRun (store : Store) (fs : FileSystem) (runId : Str) (run : RunRef) :
    Except PyExc Staged := do
  let dir ← stagedDir store fs run
  let files := walkedFiles fs.toLocalFs dir
  return ⟨runId, run.chip, dir, files.insertionSort (· ≤ ·), files.length⟩

def stage (store : Store) (fs : FileSystem) (runId : Str) : Action Staged := do
  let run ← runById runId
  ofExcept (stageRun store fs runId run)

end Accel.Model
