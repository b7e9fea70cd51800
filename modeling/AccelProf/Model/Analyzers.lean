import AccelProf.Data.Replace
import AccelProf.Model.Glob

/-! The argv templates of `analyzers.py`, checked when an analyzer is registered and expanded when
it runs, and the bound on its advice. -/

namespace Accel.Model
open Data

def dirMark : Str := "\x7bdir\x7d".toList
def tmpMark : Str := "\x7btmp\x7d".toList
def fileWord : Str := "file".toList
def filesWord : Str := "files".toList

/-- `s.replace(old, new)` -/
def replace (s old new : Str) : Str := replaceAll [(old, new)] s

/-- `re.match` of `^\{word:(.+)\}$`: the group. The `$` also matches just before a final newline. -/
def selector (word tok : Str) : Option Str :=
  let body := if tok.getLast? = some '\n' then tok.dropLast else tok
  let opening := '{' :: word ++ [':']
  let glob := (body.drop opening.length).dropLast
  if opening <+: body ∧ body.getLast? = some '}' ∧ glob ≠ [] ∧ '\n' ∉ glob then some glob else none

/-- `find_matches`; a path occurs once, also where several `**` reach it. -/
def findMatches (fs : FileSystem) (runDir pattern : Str) : Except PyExc (List Str) :=
  (fs.rglob (PurePath.parse runDir) pattern).map fun found =>
    ((found.map fun x => x.1.str).filter fs.isFile).dedup.insertionSort (· ≤ ·)

def validateToken (tok : Str) : Except PyExc Unit :=
  if (selector fileWord tok).isSome ∨ (selector filesWord tok).isSome then .ok ()
  else
    let residual := replace (replace tok dirMark []) tmpMark []
    if '{' ∈ residual ∨ '}' ∈ residual then .error (.badToken tok) else .ok ()

def validateArgvTemplate (argv : List Str) : Except PyExc Unit := argv.forM validateToken

/-- `"{dir}" in tok or "{tmp}" in tok` -/
def embeds (tok : Str) : Bool := dirMark <:+: tok ∨ tmpMark <:+: tok

def expandToken (fs : FileSystem) (runDir tmpDir tok : Str) : Except PyExc (List Str) :=
  if embeds tok then .ok [replace (replace tok dirMark runDir) tmpMark tmpDir]
  else
    match selector fileWord tok with
    | some glob => do
      let found ← findMatches fs runDir glob
      if found.length ≠ 1 then .error (.notOneFile tok glob runDir found) else return found
    | none =>
      match selector filesWord tok with
      | some glob => do
        let found ← findMatches fs runDir glob
        if found = [] then .error (.noFile tok glob runDir) else return found
      | none => .ok [tok]

def expandArgv (fs : FileSystem) (template : List Str) (runDir tmpDir : Str) :
    Except PyExc (List Str) :=
  (template.mapM (expandToken fs runDir tmpDir)).map List.flatten

def maxAdviceChars : ℕ := 200000

/-- `marker.format(n)` -/
def truncationMarker (n : ℕ) : Str :=
  "\n…[truncated ".toList ++ (toString n).toList ++ " chars]".toList

/-- The characters kept of a text that is too long; 8 are slack for the digits of the count. -/
def adviceBudget : ℕ := maxAdviceChars - (truncationMarker 0).length - 8

def bounded (text : Str) : Str :=
  if text.length ≤ maxAdviceChars then text
  else text.take adviceBudget ++ truncationMarker (text.length - adviceBudget)

end Accel.Model
