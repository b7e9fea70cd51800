import AccelProf.Model.Text

/-! The producer's machine: paths as `posixpath` computes them and the files an upload reads. -/

namespace Accel.Model

/-- `os.path.join(a, b)` -/
def pathJoin (a b : Str) : Str :=
  if b.head? = some '/' then b
  else if a = [] ∨ a.getLast? = some '/' then a ++ b
  else a ++ '/' :: b

/-- `os.path.basename` -/
def basename (p : Str) : Str := lastField p

def dot : Str := ['.']
def dotDot : Str := ['.', '.']

/-- One component in the loop of `os.path.normpath`, over the components kept so far. -/
def normStep (absolute : Bool) (kept : List Str) (comp : Str) : List Str :=
  if comp = [] ∨ comp = dot then kept
  else if comp ≠ dotDot ∨ (!absolute ∧ kept = []) ∨ kept.getLast? = some dotDot then kept ++ [comp]
  else kept.dropLast

/-- `os.path.normpath`; exactly two leading slashes are kept, as POSIX wants. -/
def normpath (p : Str) : Str :=
  let slashes :=
    if p.take 1 ≠ ['/'] then 0 else if p.take 2 = ['/', '/'] ∧
      p.take 3 ≠ ['/', '/', '/'] then 2 else 1
  let comps := (p.splitOn '/').foldl (normStep (slashes ≠ 0)) []
  let path := List.replicate slashes '/' ++ (comps.intersperse ['/']).flatten
  if path = [] then dot else path

/-- What `os` shows of a file system: `walk` lists each directory below a base with the names of
its files. -/
structure LocalFs where
  cwd : Str
  isdir : Str → Bool
  pathExists : Str → Bool
  walk : Str → List (Str × List Str)
  read : Str → Bytes
  /-- hex and base64 of the sha256 digest -/
  sha256 : Bytes → Str × Str

namespace LocalFs

def abspath (fs : LocalFs) (p : Str) : Str := normpath (pathJoin fs.cwd p)

def components (p : Str) : List Str := (p.splitOn '/').filter (· ≠ [])

def commonLength : List Str → List Str → ℕ
  | x :: xs, y :: ys => if x = y then commonLength xs ys + 1 else 0
  | _, _ => 0

/-- `os.path.relpath(path, start)` -/
def relpath (fs : LocalFs) (path start : Str) : Str :=
  let startList := components (fs.abspath start)
  let pathList := components (fs.abspath path)
  let i := commonLength startList pathList
  match List.replicate (startList.length - i) dotDot ++ pathList.drop i with
  | [] => dot
  | comps => (comps.intersperse ['/']).flatten

/-- The files of one artifact, each with the path it gets below the run's prefix. -/
def iterFiles (fs : LocalFs) (path : Str) : Except PyExc (List (Str × Str)) :=
  if fs.isdir path then
    let base := if rstrip '/' path = [] then ['/'] else rstrip '/' path
    .ok <| (fs.walk base).flatMap fun (root, files) =>
      files.map fun name => (pathJoin root name, fs.relpath (pathJoin root name) base)
  else if fs.pathExists path then .ok [(path, basename path)]
  else .error (.fileNotFound path)

end LocalFs
end Accel.Model
