import Mathlib

/-! Python values as the code uses them: strings as lists of characters, exceptions by the place
that raises them together with the data their text prints. -/

namespace Accel.Model

abbrev Str := List Char
abbrev Bytes := List UInt8
/-- Seconds since the epoch, or a duration; sums and differences of them are taken as exact. -/
abbrev Seconds := ℚ

inductive PyFloat where
  | finite (q : ℚ)
  | posInf
  | negInf
  | nan
  deriving DecidableEq

instance : LawfulBEq Str := inferInstance

def lstrip (c : Char) (s : Str) : Str := s.dropWhile (· == c)
def rstrip (c : Char) (s : Str) : Str := s.rdropWhile (· == c)

/-- `re.match` of `^body$`: the `$` also matches just before a final newline. -/
def matchAnchored (body : Str → Bool) (s : Str) : Bool :=
  body s || (s.getLast? == some '\n' && body s.dropLast)

theorem matchAnchored_iff {body : Str → Bool} {s : Str} :
    matchAnchored body s = true ↔ body s = true ∨ ∃ t, s = t ++ ['\n'] ∧ body t = true := by
  simp only [matchAnchored, Bool.or_eq_true, Bool.and_eq_true, beq_iff_eq]
  refine or_congr_right ⟨fun ⟨hl, hb⟩ => ⟨s.dropLast, ?_, hb⟩, ?_⟩
  · exact (List.dropLast_append_getLast? _ hl).symm
  · rintro ⟨t, rfl, hb⟩
    simpa using hb

/-- `x.split("/")[-1]` -/
def lastField (s : Str) : Str := (s.splitOn '/').getLastD []

structure ErrorBody where
  code : Option Str

structure ErrorResponse where
  error : Option ErrorBody

/-- An exception raised by a client library, with the two attributes the code looks at;
`response` is `none` unless it is a dict. -/
structure ServiceError where
  errorCode : Option Str
  response : Option ErrorResponse

/-- `resp.get("Error", {}).get("Code")` -/
def ServiceError.responseCode (e : ServiceError) : Option Str :=
  e.response.bind fun r => r.error.bind fun b => b.code

inductive PyExc where
  | service (e : ServiceError)
  | badIdentity (field value : Str)
  | badMetric (key : Str)
  | reservedTag (key : Str)
  | invalidUrl (url : Str)
  | notS3Uri (uri : Str)
  | queryOrFragment (uri : Str)
  | noBucket (uri : Str)
  | emptyDelete (uri : Str)
  | emptyMarker (uri : Str)
  | fileNotFound (path : Str)
  | keyCollision (first second key : Str)
  | checksumMismatch (key remote localB64 : Str)
  | sizeMismatch (key : Str) (remote localSize : Nat)
  | uploadFailed (attempts : Nat) (lastErr : Option PyExc)
  | deleteErrors (count : Nat) (first : Str)
  | noExperiment (aliasName : Str)
  | noArtifactsUri (runId : Str)
  | noMountBase
  | otherBucket (bucket expected : Str)
  | escapesDest (key : Str)
  | osError (path : Str)
  | unsupportedPattern (pattern : Str)
  | invalidPattern (pattern : Str)
  | badToken (tok : Str)
  | notOneFile (tok glob runDir : Str) (found : List Str)
  | noFile (tok glob runDir : Str)
  | badBy (by_ : Str)
  | noSelector
  | runNotUsable (runId : Str)
  | noChipRun (chip aliasName : Str)
  | mountAbsent (base : Option Str)
  | recordedWithoutProfiler (runId : Str) (mode : Option Str) (dir base : Str)
  | nothingStaged (base dir : Str)
  | janitorQuery (runId : Str) (cause : PyExc)
  | janitorCanary (cause : PyExc)
  | janitorRatio (orphans considered : Nat) (fraction : PyFloat)

/-- `JanitorAbortError`, from whichever of its three places. -/
def PyExc.isJanitorAbort : PyExc → Bool
  | .janitorQuery .. => true
  | .janitorCanary .. => true
  | .janitorRatio .. => true
  | _ => false

def PyExc.isLookupError : PyExc → Bool
  | .noExperiment _ => true
  | .runNotUsable _ => true
  | .noChipRun .. => true
  | _ => false

/-- `getattr(exc, "error_code", None)` -/
def PyExc.errorCodeAttr : PyExc → Option Str
  | .service e => e.errorCode
  | _ => none

/-- The error code of a botocore exception; the code's own exceptions carry none. -/
def PyExc.responseCode : PyExc → Option Str
  | .service e => e.responseCode
  | _ => none

end Accel.Model
