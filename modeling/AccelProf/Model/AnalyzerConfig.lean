import AccelProf.Model.Analyzers
import AccelProf.Model.Services

/-! The analyzers a deployment registers: `_parse_analyzers` of `config.py` over
`build_analyzer`. -/

namespace Accel.Model
open Data

/-- What `json.loads` makes of a text; an object has its members in the order of the text. -/
inductive Json where
  | null
  | bool (b : Bool)
  | int (n : ℤ)
  | float (x : PyFloat)
  | str (s : Str)
  | arr (items : List Json)
  | obj (members : List (Str × Json))

namespace Json

/-- `type(v).__name__` -/
def typeName : Json → Str
  | null => "NoneType".toList
  | bool _ => "bool".toList
  | int _ => "int".toList
  | float _ => "float".toList
  | str _ => "str".toList
  | arr _ => "list".toList
  | obj _ => "dict".toList

def str? : Json → Option Str
  | str s => some s
  | _ => none

/-- The value of a key; of several members with the key the last one counts. -/
def get (members : List (Str × Json)) (key : Str) : Option Json := members.reverse.lookup key

/-- `obj.items()` -/
def itemsOf (members : List (Str × Json)) : List (Str × Json) :=
  (members.map Prod.fst).eraseDups.filterMap fun key => (get members key).map fun v => (key, v)

end Json

/-- What is wrong with a configuration. -/
inductive SpecProblem where
  | notJson
  | notObject
  | shape (name typeName : Str)
  | strings (name field : Str)
  | template (cause : PyExc)
  | readyPort (name : Str)
  | unknownType (name : Str) (kind : Json)

/-- The exceptions of loading a configuration. -/
inductive LoadExc where
  | valueError (problem : SpecProblem)
  /-- the value is not iterable -/
  | typeError (typeName : Str)

/-- A registered analyzer. Nothing converts or checks the fields that hold a `Json`. -/
inductive Analyzer where
  | command (name : Str) (argvTemplate : List Str) (dropLinePrefixes : List Json)
  | server (name : Str) (startTemplate : List Str) (readyPort : ℤ) (queryTemplate : List Str)
      (dropLinePrefixes : List Json) (readyTimeoutS : Json)

/-- `tuple(v)` -/
def pyTuple : Json → Except LoadExc (List Json)
  | .arr items => .ok items
  | .str s => .ok (s.map fun c => .str [c])
  | .obj members => .ok ((Json.itemsOf members).map fun item => .str item.1)
  | v => .error (.typeError v.typeName)

/-- A field that must be a non-empty list of strings, each a valid token. -/
def templateField (name field : Str) (v : Option Json) : Except LoadExc (List Str) :=
  match v with
  | some (.arr items) =>
    match items.mapM Json.str? with
    | some (tok :: toks) =>
      match validateArgvTemplate (tok :: toks) with
      | .ok _ => .ok (tok :: toks)
      | .error e => .error (.valueError (.template e))
    | _ => .error (.valueError (.strings name field))
  | _ => .error (.valueError (.strings name field))

def argvField : Str := "argv".toList
def typeField : Str := "type".toList
def dropField : Str := "drop_line_prefixes".toList
def startField : Str := "start".toList
def queryField : Str := "query".toList
def portField : Str := "ready_port".toList
def timeoutField : Str := "ready_timeout_seconds".toList
def commandType : Str := "command".toList
def serverType : Str := "server".toList

def buildCommand (name : Str) (spec : List (Str × Json)) (drop : List Json) :
    Except LoadExc Analyzer := do
  let argv ← templateField name argvField (Json.get spec argvField)
  return .command name argv drop

def buildServer (name : Str) (spec : List (Str × Json)) (drop : List Json) :
    Except LoadExc Analyzer := do
  let start ← templateField name startField (Json.get spec startField)
  let query ← templateField name queryField (Json.get spec queryField)
  match Json.get spec portField with
  | some (.int port) =>
    return .server name start port query drop ((Json.get spec timeoutField).getD (.int 60))
  | _ => .error (.valueError (.readyPort name))

/-- `build_analyzer` for an object. -/
def buildFromObject (name : Str) (spec : List (Str × Json)) : Except LoadExc Analyzer := do
  let kind := (Json.get spec typeField).getD (.str commandType)
  let drop ← pyTuple ((Json.get spec dropField).getD (.arr []))
  match kind with
  | .str s =>
    if s = commandType then buildCommand name spec drop
    else if s = serverType then buildServer name spec drop
    else .error (.valueError (.unknownType name kind))
  | _ => .error (.valueError (.unknownType name kind))

def buildAnalyzer (name : Str) (spec : Json) : Except LoadExc Analyzer :=
  match spec with
  | .arr argv => buildFromObject name [(typeField, .str commandType), (argvField, .arr argv)]
  | .obj members => buildFromObject name members
  | v => .error (.valueError (.shape name v.typeName))

/-- `_parse_analyzers`, with `loads` for `json.loads`. -/
def parseAnalyzers (loads : Str → Option Json) (raw : Str) :
    Except LoadExc (List (Str × Analyzer)) :=
  match loads raw with
  | none => .error (.valueError .notJson)
  | some (.obj members) => (Json.itemsOf members).mapM fun item =>
      (buildAnalyzer item.1 item.2).map fun a => (item.1, a)
  | some _ => .error (.valueError .notObject)

end Accel.Model
