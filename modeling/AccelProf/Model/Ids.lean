import AccelProf.Model.Text

/-! The identity contract (`ids.py`): reserved tags and the charset of an identity. -/

namespace Accel.Model

def schemaVersion : Str := "1".toList

def aliasTag : Str := "exp.alias".toList
def chipTag : Str := "chip".toList
def regionTag : Str := "region".toList
def workloadTag : Str := "workload_id".toList
def artifactsUriTag : Str := "artifacts_uri".toList
def schemaVersionTag : Str := "schema_version".toList
def namespaceTag : Str := "namespace".toList

def reservedTags : List Str :=
  [aliasTag, chipTag, regionTag, workloadTag, artifactsUriTag, schemaVersionTag]

def chips : List Str := ["gpu".toList, "neuron".toList, "cpu".toList]

def isIdChar (c : Char) : Bool := c.isAlphanum || c == '.' || c == '_' || c == '-'

/-- `[A-Za-z0-9][A-Za-z0-9._-]{0,127}` -/
def safeIdBody : Str → Bool
  | [] => false
  | c :: t => c.isAlphanum && t.length ≤ 127 && t.all isIdChar

/-- `[a-z0-9-]{1,32}` -/
def safeRegionBody (s : Str) : Bool :=
  1 ≤ s.length && s.length ≤ 32 && s.all fun c => c.isLower || c.isDigit || c == '-'

def safeId (s : Str) : Bool := matchAnchored safeIdBody s
def safeRegion (s : Str) : Bool := matchAnchored safeRegionBody s

structure Identity where
  aliasName : Str
  chip : Str
  region : Str
  workloadId : Str

def validateIdentity (i : Identity) : Except PyExc Unit :=
  if !safeId i.aliasName then .error (.badIdentity "alias".toList i.aliasName)
  else if i.chip ∉ chips then .error (.badIdentity "chip".toList i.chip)
  else if !safeRegion i.region then .error (.badIdentity "region".toList i.region)
  else if !safeId i.workloadId then .error (.badIdentity "workload_id".toList i.workloadId)
  else .ok ()

def creationTags (i : Identity) : List (Str × Str) :=
  [(aliasTag, i.aliasName), (chipTag, i.chip), (regionTag, i.region), (workloadTag, i.workloadId),
    (schemaVersionTag, schemaVersion)]

def runName (i : Identity) : Str := i.chip ++ ':' :: i.workloadId

def isReserved (key : Str) : Bool := key ∈ reservedTags

theorem safeId_of_validate {i : Identity} (h : validateIdentity i = .ok ()) :
    safeId i.aliasName = true := by
  by_contra hs
  rw [validateIdentity, if_pos (by simpa using hs)] at h
  simp only [reduceCtorEq] at h

/-- Lowercase hexadecimal, the shape of an MLflow run id. -/
def isHex (c : Char) : Bool := c.isDigit || ('a' ≤ c && c ≤ 'f')

def isRunId (s : Str) : Bool := s.length == 32 && s.all isHex

end Accel.Model
