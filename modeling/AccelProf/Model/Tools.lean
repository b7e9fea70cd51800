import AccelProf.Data.Lines
import AccelProf.Model.AnalysisService
import AccelProf.Model.AnalyzerConfig
import AccelProf.Program.Cleanup

/-! The analyzers at work (`analyzers.py`): what they ask of the machine they run on, and what they
make of a tool's output. -/

namespace Accel.Model
open Data Program Prog

section Text

/-- `str.isspace` for one character. -/
def isPySpace (c : Char) : Bool :=
  let n := c.toNat
  (9 ≤ n ∧ n ≤ 13) ∨ (28 ≤ n ∧ n ≤ 32) ∨ n = 133 ∨ n = 160 ∨ n = 5760 ∨ (8192 ≤ n ∧ n ≤ 8202) ∨
    n = 8232 ∨ n = 8233 ∨ n = 8239 ∨ n = 8287 ∨ n = 12288

/-- The characters at which `str.splitlines` ends a line. -/
def isLineBreak (c : Char) : Bool :=
  let n := c.toNat
  (10 ≤ n ∧ n ≤ 13) ∨ (28 ≤ n ∧ n ≤ 30) ∨ n = 133 ∨ n = 8232 ∨ n = 8233

def splitlines (s : Str) : List Str :=
  splitLines isLineBreak (fun c d => c = '\r' ∧ d = '\n') s

def joinNewline (lines : List Str) : Str := joinLines '\n' lines

/-- `not s.strip()` -/
def isBlank (s : Str) : Bool := s.all isPySpace

def decimal (n : ℤ) : Str := (toString n).toList

end Text

/-- What an analyzer raises: an exception of the code, of the machine by its class, or of an
expression over configured values. `outOfFuel` is not Python's: a loop was cut short. -/
inductive ToolExc where
  | code (e : PyExc)
  | machine (className : Str)
  | typeError
  | overflowError
  | unknownAnalyzer (name : Str) (available : List Str)
  | outOfFuel

abbrev Pid := ℕ

/-- What `subprocess.run` comes back with. -/
inductive RunResult where
  | exited (returncode : ℤ) (stdout stderr : Str)
  | timedOut (stdout : Str)

inductive ToolCall where
  | mkdtemp
  | rmtree (path : Str)
  | run (argv : List Str) (cwd : Str) (timeout : ℤ)
  | popen (argv : List Str) (cwd : Str)
  | poll (server : Pid)
  | readOutput (server : Pid)
  | connect (port : ℤ)
  | monotonic
  | sleep (seconds : Seconds)
  | terminate (server : Pid)
  | wait (server : Pid) (timeout : Seconds)
  | kill (server : Pid)

/-- `poll` answers an exit code, and so does `wait` unless it runs out of time. -/
@[reducible] def ToolResp : ToolCall → Type
  | .mkdtemp => Str
  | .rmtree _ => Unit
  | .run .. => RunResult
  | .popen .. => Pid
  | .poll _ => Option ℤ
  | .readOutput _ => Str
  | .connect _ => Bool
  | .monotonic => Seconds
  | .sleep _ => Unit
  | .terminate _ => Unit
  | .wait .. => Option ℤ
  | .kill _ => Unit

@[reducible] def ToolAns (c : ToolCall) : Type := Except ToolExc (ToolResp c)

abbrev Tool := Prog ToolCall ToolAns ToolExc

def tool (c : ToolCall) : Tool (ToolResp c) := Prog.perform c

/-- A computation of the code without calls. -/
def ofCode {α : Type} (x : Except PyExc α) : Tool α := ofExcept (x.mapError .code)

section Shaping

/-- `ln.lstrip().startswith(prefixes)`: a prefix that is no string is an error if it is reached. -/
def startsWithAny (line : Str) : List Json → Except ToolExc Bool
  | [] => .ok false
  | .str p :: prefixes => if p <+: line then .ok true else startsWithAny line prefixes
  | _ :: _ => .error .typeError

def keepLine (prefixes : List Json) (keep : List Str) (line : Str) : Except ToolExc (List Str) := do
  let dropped ← startsWithAny (line.dropWhile isPySpace) prefixes
  return if dropped then keep else keep ++ [line]

/-- The lines that start with none of the prefixes. -/
def keepLines (prefixes : List Json) (lines : List Str) : Except ToolExc (List Str) :=
  lines.foldlM (keepLine prefixes) []

def exitMarker (name : Str) (returncode : ℤ) : Str :=
  "[analyzer '".toList ++ name ++ "' exited ".toList ++ decimal returncode ++ "]\n".toList

def noFindings (name : Str) : Str :=
  "[analyzer '".toList ++ name ++ ("' ran successfully but produced no findings — likely no " ++
    "matching activity in this trace]").toList

/-- The output without its noise lines. -/
def withoutNoise (stdout : Str) (dropPrefixes : List Json) : Except ToolExc Str :=
  if dropPrefixes = [] then .ok stdout
  else (keepLines dropPrefixes (splitlines stdout)).map joinNewline

/-- `_finalize` -/
def finalize (name : Str) (returncode : ℤ) (stdout stderr : Str) (dropPrefixes : List Json) :
    Except ToolExc Str :=
  if returncode ≠ 0 then
    .ok (bounded (exitMarker name returncode ++ stderr ++ "\n---\n".toList ++ stdout))
  else do
    let out ← withoutNoise stdout dropPrefixes
    return if isBlank out then noFindings name else bounded out

end Shaping

section Command

def timedOutText (name what : Str) (timeout : ℤ) (stdout : Str) : Str :=
  bounded ("[analyzer '".toList ++ name ++ what ++ "timed out after ".toList ++ decimal timeout ++
    "s]\n---\n".toList ++ stdout)

/-- One run of a tool to its end. -/
def runOnce (name what : Str) (dropPrefixes : List Json) (argv : List Str) (tmpDir : Str)
    (timeout : ℤ) : Tool Str := do
  match ← tool (.run argv tmpDir timeout) with
  | .exited returncode stdout stderr =>
    ofExcept (finalize name returncode stdout stderr dropPrefixes)
  | .timedOut stdout => return timedOutText name what timeout stdout

/-- `CommandAnalyzer.__call__` -/
def runCommand (fs : FileSystem) (name : Str) (argvTemplate : List Str) (dropPrefixes : List Json)
    (runDir : Str) (timeout : ℤ) : Tool Str :=
  if !fs.toLocalFs.isdir runDir then raise (.code (.fileNotFound runDir))
  else do
    let tmpDir ← tool .mkdtemp
    let body : Tool Str := do
      let argv ← ofCode (expandArgv fs argvTemplate runDir tmpDir)
      runOnce name "' ".toList dropPrefixes argv tmpDir timeout
    body.ensuring (tool (.rmtree tmpDir))

end Command

section Server

/-- A number as Python compares it: exactly. -/
def Json.exact : Json → Option PyFloat
  | .bool b => some (.finite (if b then 1 else 0))
  | .int n => some (.finite n)
  | .float x => some x
  | _ => none

/-- `q < x` -/
def PyFloat.above (q : ℚ) : PyFloat → Bool
  | .finite x => q < x
  | .posInf => true
  | _ => false

/-- `min(ready_timeout_s, timeout_s)`: the first unless the second is smaller. -/
def minTimeout (readyTimeout : Json) (timeout : ℤ) : Except ToolExc Json :=
  match readyTimeout.exact with
  | none => .error .typeError
  | some x => .ok (if x.above timeout then .int timeout else readyTimeout)

/-- A number that is added to a float. -/
def Json.toDouble : Json → Except ToolExc PyFloat
  | .bool b => .ok (.finite (if b then 1 else 0))
  | .int n => (PyVal.toFloat (.int n)).elim (.error .overflowError) .ok
  | .float x => .ok x
  | _ => .error .typeError

/-- `t + x` -/
def PyFloat.after (t : Seconds) : PyFloat → PyFloat
  | .finite x => .finite (t + x)
  | x => x

/-- `now + limit` -/
def deadlineAt (now : Seconds) (limit : Json) : Except ToolExc PyFloat :=
  limit.toDouble.map (PyFloat.after now)

/-- A number in an f-string, with `fmt` for the floats. -/
def Json.numberText (fmt : PyFloat → Str) : Json → Str
  | .bool b => if b then "True".toList else "False".toList
  | .int n => decimal n
  | .float x => fmt x
  | _ => []

/-- How the wait for the port ends. -/
inductive Readiness where
  | ready
  | died (returncode : ℤ)
  | neverOpened

/-- The loop that waits for the port; `fuel` bounds its rounds. -/
def awaitPort (server : Pid) (port : ℤ) (deadline : PyFloat) : ℕ → Tool Readiness
  | 0 => raise .outOfFuel
  | fuel + 1 => do
    let now ← tool .monotonic
    if !deadline.above now then return .neverOpened
    else
      match ← tool (.poll server) with
      | some returncode => return .died returncode
      | none =>
        if ← tool (.connect port) then return .ready
        else do
          tool (.sleep (1 / 2))
          awaitPort server port deadline fuel

structure ServerSpec where
  name : Str
  startTemplate : List Str
  readyPort : ℤ
  queryTemplate : List Str
  dropLinePrefixes : List Json
  readyTimeoutS : Json

/-- The `try` of `ServerQueryAnalyzer.__call__` from the started server on. -/
def consult (fmt : PyFloat → Str) (spec : ServerSpec) (fuel : ℕ) (server : Pid) (query : List Str)
    (tmpDir : Str) (timeout : ℤ) : Tool Str := do
  let now ← tool .monotonic
  let limit ← ofExcept (minTimeout spec.readyTimeoutS timeout)
  let deadline ← ofExcept (deadlineAt now limit)
  match ← awaitPort server spec.readyPort deadline fuel with
  | .died returncode => do
    let log ← tool (.readOutput server)
    ofExcept (finalize spec.name (if returncode = 0 then 1 else returncode) []
      ("server exited before opening port ".toList ++ decimal spec.readyPort ++ ":\n".toList ++ log)
      [])
  | .neverOpened =>
    return bounded ("[analyzer '".toList ++ spec.name ++ "' server never opened port ".toList ++
      decimal spec.readyPort ++ " within ".toList ++ limit.numberText fmt ++ "s]".toList)
  | .ready => runOnce spec.name "' query ".toList spec.dropLinePrefixes query tmpDir timeout

/-- What the `finally` of `ServerQueryAnalyzer.__call__` does to a server. -/
def stopServer (server : Pid) : Tool Unit := do
  match ← tool (.poll server) with
  | some _ => return ()
  | none => do
    tool (.terminate server)
    match ← tool (.wait server 5) with
    | some _ => return ()
    | none => tool (.kill server)

/-- The `finally` of `ServerQueryAnalyzer.__call__`. -/
def tearDown (server : Option Pid) (tmpDir : Str) : Tool Unit :=
  match server with
  | none => tool (.rmtree tmpDir)
  | some server => do
    stopServer server
    tool (.rmtree tmpDir)

/-- The `try` up to the started server. -/
def startServer (fs : FileSystem) (spec : ServerSpec) (runDir tmpDir : Str) :
    Tool (Pid × List Str) := do
  let start ← ofCode (expandArgv fs spec.startTemplate runDir tmpDir)
  let query ← ofCode (expandArgv fs spec.queryTemplate runDir tmpDir)
  let server ← tool (.popen start tmpDir)
  return (server, query)

/-- `ServerQueryAnalyzer.__call__` -/
def runServer (fs : FileSystem) (fmt : PyFloat → Str) (spec : ServerSpec) (fuel : ℕ) (runDir : Str)
    (timeout : ℤ) : Tool Str :=
  if !fs.toLocalFs.isdir runDir then raise (.code (.fileNotFound runDir))
  else do
    let tmpDir ← tool .mkdtemp
    match ← (startServer fs spec runDir tmpDir).attempt with
    | .error e => do
      tearDown none tmpDir
      raise e
    | .ok (server, query) =>
      (consult fmt spec fuel server query tmpDir timeout).ensuring (tearDown (some server) tmpDir)

end Server

section Registry

/-- The lines of one directory of a walk. -/
def inventoryLines (fs : LocalFs) (runDir : Str) (entry : Str × List Str) : List (Str × ℕ) :=
  (entry.2.insertionSort (· ≤ ·)).map fun name =>
    let path := pathJoin entry.1 name
    (fs.relpath path runDir, (fs.read path).length)

/-- `inventory_analyzer` -/
def inventory (fs : LocalFs) (runDir : Str) : Except PyExc Str :=
  if !fs.isdir runDir then .error (.fileNotFound runDir)
  else
    let files := (fs.walk runDir).flatMap (inventoryLines fs runDir)
    let header := "inventory of ".toList ++ runDir ++ ":".toList
    let lines := files.map fun f => "  ".toList ++ f.1 ++ "\t".toList ++ decimal f.2
    let total := "total_files=".toList ++ decimal files.length ++ " total_bytes=".toList ++
      decimal (files.map Prod.snd).sum
    .ok (bounded (joinNewline (header :: lines ++ [total])))

def nsysDrop : List Json :=
  [.str "Processing [".toList, .str "SKIPPED:".toList, .str "Generating SQLite".toList]

/-- What a name of the registry stands for. -/
inductive Registered where
  | inventory
  | configured (a : Analyzer)

def nsysTool (name command scratch : String) : Registered :=
  .configured (.command name.toList
    ["nsys".toList, command.toList, "--force-export=true".toList, "--sqlite".toList, scratch.toList,
      "\x7bfile:*.nsys-rep\x7d".toList] nsysDrop)

/-- `BUILTIN_ANALYZERS` -/
def builtinAnalyzers : List (Str × Registered) :=
  [("inventory".toList, .inventory),
   ("nsys-stats".toList, nsysTool "nsys-stats" "stats" "\x7btmp\x7d/e.sqlite"),
   ("nsys-analyze".toList, nsysTool "nsys-analyze" "analyze" "\x7btmp\x7d/a.sqlite"),
   ("neuron-summary".toList, .configured (.command "neuron-summary".toList
     ["neuron-explorer".toList, "view".toList, "-n".toList, "\x7bfile:*.neff\x7d".toList,
       "-s".toList, "\x7bfile:*.ntff\x7d".toList, "--output-format".toList,
       "summary-text".toList] []))]

/-- The merged registry; of two entries for a name the first counts. -/
def registry (extra : List (Str × Analyzer)) : List (Str × Registered) :=
  extra.map (fun e => (e.1, .configured e.2)) ++ builtinAnalyzers

def resolveAnalyzer (name : Str) (extra : List (Str × Analyzer)) : Except ToolExc Registered :=
  match (registry extra).lookup name with
  | some fn => .ok fn
  | none =>
    .error (.unknownAnalyzer name (((registry extra).map Prod.fst).dedup.insertionSort (· ≤ ·)))

end Registry

section Analyze

/-- What `AnalysisService` holds besides the store; `fmt` shows a float. -/
structure Desk where
  extra : List (Str × Analyzer)
  timeoutS : ℤ
  fmt : PyFloat → Str

variable (desk : Desk) (fs : FileSystem) (fuel : ℕ)

def Analyzer.call (runDir : Str) : Analyzer → Tool Str
  | .command name argv drop => runCommand fs name argv drop runDir desk.timeoutS
  | .server name start port query drop readyTimeout =>
    runServer fs desk.fmt ⟨name, start, port, query, drop, readyTimeout⟩ fuel runDir desk.timeoutS

def Registered.call (runDir : Str) : Registered → Tool Str
  | .inventory => ofCode (Model.inventory fs.toLocalFs runDir)
  | .configured a => a.call desk fs fuel runDir

/-- `AnalysisService.analyze` once the run is staged at `runDir`. -/
def advise (runDir name : Str) : Tool Str := do
  let fn ← ofExcept (resolveAnalyzer name desk.extra)
  fn.call desk fs fuel runDir

end Analyze

end Accel.Model
