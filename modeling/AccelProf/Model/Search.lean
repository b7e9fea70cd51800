import AccelProf.Data.Blocks
import AccelProf.Model.Store

/-! Search by MLflow filter: `MlflowIO.search`, which asks for one page of runs after another, and
`ExperimentStore.search` over it. -/

namespace Accel.Model
open Data Program Prog

/-- The calls of a search. A page token is the position at which the page starts. -/
inductive Query where
  | base (c : Call)
  | searchExperiments
  | searchRunsPage (experimentIds : List Str) (filterString : Str) (orderBy : List Str)
      (maxResults : ℕ) (pageToken : Option ℕ)

@[reducible] def QueryResp : Query → Type
  | .base c => Resp c
  | .searchExperiments => List Str
  | .searchRunsPage .. => Block (Str × Run)

@[reducible] def Reply (q : Query) : Type := Except PyExc (QueryResp q)

abbrev Search := Prog Query Reply PyExc

def ask (q : Query) : Search (QueryResp q) := Prog.perform q

/-- A program of the store and the tracking server as a part of a search. -/
def asQuery {α : Type} (p : Action α) : Search α := p.lift Query.base fun _ a => a

/-- What a caller passes to `search`. -/
structure SearchArgs where
  aliasName : Option Str
  filterString : Str
  orderBy : Option (List Str)
  maxResults : ℕ

/-- The loop of `MlflowIO.search`, for at most `fuel` pages; `none` when they do not suffice. -/
def searchPages (ids : List Str) (args : SearchArgs) (pageSize : ℕ) :
    ℕ → List RunRef → Option ℕ → Search (Option (List RunRef))
  | 0, _, _ => ret none
  | fuel + 1, refs, token =>
    if refs.length < args.maxResults then do
      let page ← ask (.searchRunsPage ids args.filterString (args.orderBy.getD [])
        (min pageSize (args.maxResults - refs.length)) token)
      let refs := refs ++ page.items.map toRef
      match page.next with
      | none => return some (refs.take args.maxResults)
      | some next => searchPages ids args pageSize fuel refs (some next)
    else return some (refs.take args.maxResults)

/-- The experiments a search looks at. -/
def searchScope (aliasName : Option Str) : Search (List Str) :=
  match aliasName with
  | none => ask .searchExperiments
  | some a =>
    if a = [] then ask .searchExperiments
    else do
      match ← asQuery (experimentId a false) with
      | none => raise (.noExperiment a)
      | some id => return [id]

/-- `MlflowIO.search` -/
def mlflowSearch (fuel : ℕ) (args : SearchArgs) (pageSize : ℕ) : Search (Option (List RunRef)) := do
  let ids ← searchScope args.aliasName
  if ids = [] then return some []
  else searchPages ids args pageSize fuel [] none

/-- The loop of `resolve_alias`, for at most `fuel` pages. -/
def aliasPages (expId : Str) (pageSize : ℕ) :
    ℕ → List RunRef → Option ℕ → Search (Option (List RunRef))
  | 0, _, _ => ret none
  | fuel + 1, refs, token => do
    let page ← ask (.searchRunsPage [expId] [] [] pageSize token)
    let refs := refs ++ page.items.map toRef
    match page.next with
    | none => return some refs
    | some next => aliasPages expId pageSize fuel refs (some next)

/-- `MlflowIO.resolve_alias`, page by page. -/
def resolveAliasPages (fuel : ℕ) (aliasName : Str) (pageSize : ℕ) : Search (Option (List RunRef)) :=
  do
  match ← asQuery (experimentId aliasName false) with
  | none => raise (.noExperiment aliasName)
  | some expId => aliasPages expId pageSize fuel [] none

/-- `ExperimentStore.search`; the page size is `MlflowIO.search`'s default. -/
def search (fuel : ℕ) (args : SearchArgs) (includeUnfinished : Bool) :
    Search (Option (List RunRef)) := do
  let runs ← mlflowSearch fuel args 1000
  return runs.map fun runs => if includeUnfinished then runs else runs.filter isUsable

/-- What the tracking server finds: every experiment, and for some of them the runs that match a
filter, in the requested order. -/
structure SearchServer where
  experimentIds : World → List Str
  found : World → List Str → Str → List Str → List (Str × Run)
  found_nil : ∀ w filterString orderBy, found w [] filterString orderBy = []

/-- Every call is served, a page request with whatever block the server chooses. -/
def Finds (server : SearchServer) : Service Query Reply Fate World := fun w q l a w' =>
  match q, a with
  | .base c, a => Serves Reliable w c l a w'
  | .searchExperiments, a => l = .ok ∧ w' = w ∧ a = .ok (server.experimentIds w)
  | .searchRunsPage ids filterString orderBy most token, a => l = .ok ∧ w' = w ∧
      ∃ page, a = .ok page ∧
      IsBlock (server.found w ids filterString orderBy) most (token.getD 0) page

end Accel.Model
