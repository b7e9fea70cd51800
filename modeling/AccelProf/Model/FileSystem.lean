import AccelProf.Data.FileWrites
import AccelProf.Model.LocalFs

/-! A file system without symbolic links: how a path is resolved in it, and what `os` does to it and
shows of it. -/

namespace Accel.Model
open Data

abbrev Dir := FileTree Str Bytes

/-- A name a directory entry can have. -/
def IsName (n : Str) : Prop := n ≠ [] ∧ n ≠ dot ∧ n ≠ dotDot ∧ '/' ∉ n

instance (n : Str) : Decidable (IsName n) := inferInstanceAs (Decidable (_ ∧ _))

/-- `"/" + "/".join(comps)` -/
def slashed (comps : List Str) : Str := '/' :: (comps.intersperse ['/']).flatten

/-- The components of a path that no symbolic link leads elsewhere. -/
def realComponents (cwd p : Str) : List Str :=
  ((pathJoin cwd p).splitOn '/').foldl (normStep true) []

/-- `os.path.realpath` of a path without NUL characters. -/
def realpath (cwd p : Str) : Str := slashed (realComponents cwd p)

/-- `os.path.dirname` -/
def dirname (p : Str) : Str :=
  let head := p.take (p.length - (lastField p).length)
  if head.all (· == '/') then head else rstrip '/' head

/-- A machine's files below its root, and the directory its process works in. -/
structure FileSystem where
  root : Dir
  cwd : List Str
  valid : root.Valid IsName
  cwd_isDir : root.isDir cwd = true
  /-- hex and base64 of the sha256 digest -/
  sha256 : Bytes → Str × Str

namespace FileSystem

/-- One component of a path, looked up in the directory `cur`. -/
def resolveStep (root : Dir) (cur : List Str) (comp : Str) : Option (List Str) :=
  if !root.isDir cur then none
  else if comp = [] ∨ comp = dot then some cur
  else if comp = dotDot then some cur.dropLast
  else if (root.node (cur ++ [comp])).isSome then some (cur ++ [comp])
  else none

variable (fs : FileSystem)

/-- Where a path leads; `none` when nothing is there. -/
def resolve (p : Str) : Option (List Str) :=
  if p = [] then none
  else (p.splitOn '/').foldlM (resolveStep fs.root) (if p.head? = some '/' then [] else fs.cwd)

def lookup (p : Str) : Option (Node Str Bytes) := (fs.resolve p).bind fun q => fs.root.node q

/-- What `os` shows of the file system. -/
def toLocalFs : LocalFs where
  cwd := slashed fs.cwd
  isdir p := match fs.lookup p with
    | some (.dir _) => true
    | _ => false
  pathExists p := (fs.lookup p).isSome
  walk p := match fs.lookup p with
    | some (.dir d) => d.walk pathJoin p
    | _ => []
  read p := match fs.lookup p with
    | some (.file c) => c
    | _ => []
  sha256 := fs.sha256

end FileSystem

/-- One component in `os.makedirs`, from the directory `s.2` on: a missing directory is made; `none`
once a file was in the way. -/
def makedirsStep (s : Dir × Option (List Str)) (comp : Str) : Dir × Option (List Str) :=
  match s.2 with
  | none => s
  | some cur =>
    if comp = [] ∨ comp = dot then s
    else if comp = dotDot then (s.1, some cur.dropLast)
    else match s.1.mkdirs (cur ++ [comp]) with
      | some d => (d, some (cur ++ [comp]))
      | none => (s.1, none)

/-- `os.makedirs(p, exist_ok=True)`: the tree afterwards, and whether the call succeeds. -/
def makedirs (cwd p : Str) (d : Dir) : Dir × Bool :=
  if p = [] then (d, false)
  else
    let s := ((pathJoin cwd p).splitOn '/').foldl makedirsStep (d, some [])
    (s.1, s.2.isSome)

end Accel.Model
