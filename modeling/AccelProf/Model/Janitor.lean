import AccelProf.Data.Rounding
import AccelProf.Model.MlflowIO
import AccelProf.Model.S3Layout

/-! The garbage collector (`janitor.py`). -/

namespace Accel.Model
open Data Program Prog

def notFoundCodes : List Str := [notFoundCode]
def canaryRunId : Str := List.replicate 32 'f'
def minScannedForFraction : ℕ := 5

/-- `_RUN_ID_RE.match`: a final newline gets past the `$`. -/
def matchesRunId (s : Str) : Bool := matchAnchored isRunId s

structure SweepReport where
  scanned : ℕ := 0
  orphans : List Str := []
  purged : List Str := []
  kept : List Str := []
  skippedRecent : List Str := []
  skippedForeign : List Str := []
  staleRunning : List Str := []
  deletedObjects : ℕ := 0

structure PrefixScan where
  newestMtime : Option Seconds
  hasMarker : Bool
  empty : Bool

/-- The fields of a `Janitor`; `now` is what its clock shows during the sweep. -/
structure Janitor where
  bucket : BucketName
  now : Seconds
  minAge : Seconds
  maxOrphanFraction : PyFloat
  staleRunning : Seconds

def PyExc.isNotFound (e : PyExc) : Bool :=
  e.errorCodeAttr.any (· ∈ notFoundCodes) || e.responseCode.any (· ∈ notFoundCodes)

def runIdOf (pre : Key) : Str := lastField (rstrip '/' pre)

def scanMarkerKey (pre : Key) : Key := rstrip '/' pre ++ '/' :: retentionMarker

/-- The body of the loop over a run's objects. -/
def scanStep (pre : Key) (scan : PrefixScan) (obj : Listed) : PrefixScan where
  newestMtime := match obj.lastModified, scan.newestMtime with
    | some ts, some newest => if newest < ts then some ts else some newest
    | some ts, none => some ts
    | none, newest => newest
  hasMarker := scan.hasMarker || obj.key == scanMarkerKey pre
  empty := false

inductive Disposition where
  | orphan
  | running
  | keep
  deriving DecidableEq

def dispositionOf (ref : RunRef) : Disposition :=
  if ref.isDeleted then .orphan
  else if ref.status = some .running ∨ ref.status = some .scheduled then .running
  else if ref.isFinished then .keep
  else .orphan

def classify (runId : Str) : Action Disposition := do
  match ← (resolveRun runId).attempt with
  | .error e => if e.isNotFound then return .orphan else raise (.janitorQuery runId e)
  | .ok ref => return dispositionOf ref

def assertTrackingReachable : Action Unit := do
  match ← (resolveRun canaryRunId).attempt with
  | .error e => if e.isNotFound then return () else raise (.janitorCanary e)
  | .ok _ => return ()

/-- Clock readings of this century's doubles are multiples of `2 ^ -22`; of two that are less than
68 years apart the difference is exact. -/
theorem clock_sub_exact {m n : ℤ} (h : |m - n| < 2 ^ 53) :
    binary64.round (m * 2 ^ (-22 : ℤ) - n * 2 ^ (-22 : ℤ)) =
      m * 2 ^ (-22 : ℤ) - n * 2 ^ (-22 : ℤ) := by
  have hexact := binary64.round_eq_self (e := -22) h (by decide)
  rwa [Int.cast_sub, sub_mul] at hexact

/-- The first number too large for a double. -/
def doubleLimit : ℕ := 2 ^ 1024

/-- What a rounded result is as a double. -/
def PyFloat.ofRounded (q : ℚ) : PyFloat :=
  if doubleLimit ≤ q then .posInf else if q ≤ -doubleLimit then .negInf else .finite q

/-- `x * n` for a double and an integer: the integer is rounded to a double, and so is the product.
No count of prefixes is so large that the conversion overflows. -/
def PyFloat.mulInt (x : PyFloat) (n : ℤ) : PyFloat :=
  match x with
  | .finite q => .ofRounded (binary64.round (q * binary64.round n))
  | .posInf => if 0 < n then .posInf else if n < 0 then .negInf else .nan
  | .negInf => if 0 < n then .negInf else if n < 0 then .posInf else .nan
  | .nan => .nan

/-- `n > x`, compared without rounding. -/
def PyFloat.below (n : ℤ) : PyFloat → Bool
  | .finite q => q < n
  | .posInf => false
  | .negInf => true
  | .nan => false

example : ((PyFloat.finite (5404319552844595 / 2 ^ 54)).mulInt 10).below 3 = false := by
  decide +kernel

example : ((PyFloat.finite (5224175567749775 / 2 ^ 54)).mulInt 100).below 29 = true := by
  decide +kernel

namespace Janitor
variable (j : Janitor)

def commonPrefixes (pre : Key) : Action (List Key) := do
  let pages ← request (.listCommonPrefixes j.bucket.name pre)
  return pages.collect

def listRunPrefixes : Action (List Key) := do
  let aliasPrefixes ← j.commonPrefixes []
  aliasPrefixes.foldlM (fun prefixes aliasPrefix => do
    let found ← j.commonPrefixes aliasPrefix
    return prefixes ++ found) []

def scanPrefix (pre : Key) : Action PrefixScan := do
  let pages ← request (.listObjects j.bucket.name pre)
  return pages.fold (scanStep pre) ⟨none, false, true⟩

def isRecent (scan : PrefixScan) : Bool := scan.newestMtime.any fun t => j.now - t < j.minAge
def isStale (scan : PrefixScan) : Bool := scan.newestMtime.any fun t => j.staleRunning < j.now - t

/-- One round of the loop of `find_orphans`, on a report that has counted the prefix. -/
def examine (report : SweepReport) (pre : Key) : Action SweepReport := do
  let uri := s3Uri j.bucket.name pre
  let scan ← j.scanPrefix pre
  if scan.empty then return report
  else if j.isRecent scan then
    return { report with skippedRecent := report.skippedRecent ++ [uri] }
  else if !matchesRunId (runIdOf pre) then
    return { report with skippedForeign := report.skippedForeign ++ [uri] }
  else
    match ← classify (runIdOf pre) with
    | .running =>
      if j.isStale scan then return { report with staleRunning := report.staleRunning ++ [uri] }
      else return report
    | .keep => return report
    | .orphan =>
      if scan.hasMarker then return { report with kept := report.kept ++ [uri] }
      else return { report with orphans := report.orphans ++ [uri] }

def findOrphans : Action SweepReport := do
  assertTrackingReachable
  let prefixes ← j.listRunPrefixes
  prefixes.foldlM (fun report pre => j.examine { report with scanned := report.scanned + 1 } pre) {}

/-- `scanned - len(skipped_recent) - len(skipped_foreign)`, an integer. -/
def considered (report : SweepReport) : ℤ :=
  report.scanned - report.skippedRecent.length - report.skippedForeign.length

def ratioTripped (report : SweepReport) : Bool :=
  minScannedForFraction ≤ considered report ∧
    (j.maxOrphanFraction.mulInt (considered report)).below report.orphans.length

def purgeOrphan (report : SweepReport) (uri : Str) : Action SweepReport := do
  let n ← deletePrefix uri
  return { report with deletedObjects := report.deletedObjects + n, purged :=
    report.purged ++ [uri] }

def sweep (apply : Bool) : Action SweepReport := do
  let report ← j.findOrphans
  if !apply then return report
  else if j.ratioTripped report then
    raise (.janitorRatio report.orphans.length (considered report).toNat j.maxOrphanFraction)
  else report.orphans.foldlM purgeOrphan report

end Janitor
end Accel.Model
