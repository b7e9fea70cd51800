import AccelProf.Model.FileSystem

/-! Globbing as `fnmatch` and `pathlib` document it, on a file system without symbolic links. -/

namespace Accel.Model
open Data

/-- A part of a glob component: `*`, or one character that is in a set or, negated, outside of
it. -/
inductive GlobPiece where
  | star
  | one (negated : Bool) (ranges : List (Char × Char))

/-- The ranges of a set `[...]`; a single character is a range of its own. -/
def charRanges : Str → List (Char × Char)
  | c :: '-' :: d :: rest => (c, d) :: charRanges rest
  | c :: rest => (c, c) :: charRanges rest
  | [] => []

/-- What follows an opening bracket: the set and the rest after it, unless it is not closed. -/
def bracket (s : Str) : Option (Bool × Str × Str) :=
  let negated := s.head? = some '!'
  let body := if negated then s.tail else s
  -- a closing bracket in first place belongs to the set
  let first := if body.head? = some ']' then 1 else 0
  let inner := (body.drop first).takeWhile (· ≠ ']')
  match (body.drop first).drop inner.length with
  | [] => none
  | _ :: rest => some (negated, body.take first ++ inner, rest)

/-- The parts of a component, read from at most `n` places. -/
def globPieces : ℕ → Str → List GlobPiece
  | 0, _ => []
  | _, [] => []
  | n + 1, '*' :: s => .star :: globPieces n s
  | n + 1, '?' :: s => .one true [] :: globPieces n s
  | n + 1, '[' :: s => match bracket s with
    | some (negated, set, rest) => .one negated (charRanges set) :: globPieces n rest
    | none => .one false [('[', '[')] :: globPieces n s
  | n + 1, c :: s => .one false [(c, c)] :: globPieces n s

def globMatch : List GlobPiece → Str → Bool
  | [], s => s.isEmpty
  | .star :: pieces, s => s.tails.any (globMatch pieces)
  | .one _ _ :: _, [] => false
  | .one negated ranges :: pieces, c :: s =>
    (ranges.any fun r => r.1 ≤ c && c ≤ r.2) != negated && globMatch pieces s

/-- `fnmatch.fnmatchcase(name, pat)` -/
def fnmatch (name pat : Str) : Bool := globMatch (globPieces pat.length pat) name

/-- A `PurePosixPath`: its root and its components. -/
structure PurePath where
  root : Str
  parts : List Str
  deriving DecidableEq

namespace PurePath

def parse (p : Str) : PurePath where
  root := if p.take 1 ≠ ['/'] then []
    else if p.take 2 = ['/', '/'] ∧ p.take 3 ≠ ['/', '/', '/'] then ['/', '/'] else ['/']
  parts := (p.splitOn '/').filter fun c => c ≠ [] ∧ c ≠ dot

/-- `str(p)` -/
def str (p : PurePath) : Str :=
  if p.root = [] ∧ p.parts = [] then dot else p.root ++ (p.parts.intersperse ['/']).flatten

def child (p : PurePath) (name : Str) : PurePath := { p with parts := p.parts ++ [name] }

end PurePath

/-- A path that a glob has reached, and the directory or file it leads to. -/
abbrev Reached := PurePath × List Str

def Reached.enter (x : Reached) (name : Str) : Reached := (x.1.child name, x.2 ++ [name])

def doubleStar : Str := ['*', '*']

/-- The components of a pattern, with an empty one at its end where it asks for directories. -/
def patternParts (pattern : Str) : List Str :=
  (PurePath.parse pattern).parts ++ if pattern.getLast? = some '/' then [[]] else []

namespace FileSystem
variable (fs : FileSystem)

/-- `Path.is_file` -/
def isFile (p : Str) : Bool := match fs.lookup p with
  | some (.file _) => true
  | _ => false

/-- The directories that a `**` reaches from `x`. -/
def descend (x : Reached) : List Reached := match fs.root.node x.2 with
  | some (.dir d) => (d.walk Reached.enter x).map Prod.fst
  | _ => []

/-- The entries of the directory `x` that match `pat`; only directories when more is to follow. -/
def entries (pat : Str) (dirOnly : Bool) (x : Reached) : List Reached := match fs.root.node x.2 with
  | some (.dir d) =>
    (d.names.filter fun n => fnmatch n pat && (!dirOnly || fs.root.isDir (x.2 ++ [n]))).map x.enter
  | _ => []

/-- The selectors of a pattern, one for each component; an empty one ends a pattern for
directories. -/
def select : List Str → Reached → List Reached
  | [], x => [x]
  | pat :: rest, x =>
    if pat = [] then [x]
    else if pat = doubleStar then (fs.descend x).flatMap (select rest)
    else if pat = dotDot then select rest (x.1.child dotDot, x.2.dropLast)
    else (fs.entries pat (!rest.isEmpty) x).flatMap (select rest)

/-- `Path.rglob` -/
def rglob (dir : PurePath) (pattern : Str) : Except PyExc (List Reached) :=
  let parts := patternParts pattern
  if pattern.head? = some '/' then .error (.unsupportedPattern pattern)
  else if parts.any fun c => c ≠ doubleStar ∧
    doubleStar <:+: c then .error (.invalidPattern pattern)
  else match fs.resolve dir.str with
    | none => .ok []
    | some q => .ok (if fs.root.isDir q then fs.select (doubleStar :: parts) (dir, q) else [])

end FileSystem
end Accel.Model
