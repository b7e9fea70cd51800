import AccelProf.Model.Search
import AccelProf.Store.Creation
import AccelProf.Spec.Reference

/-! What a search returns: the paging loop collects the first runs of the server's answer, whatever
its page splits, and the usable ones among these are kept. -/

namespace Accel.Model
open Data Program Prog

variable {server : SearchServer} {w w' : World} {ids : List Str} {args : SearchArgs}
  {tr : List (Step Query Reply Fate World)}

/-- The experiments a search looks at, when its alias has one. -/
def SearchServer.scope (server : SearchServer) (w : World) : Option Str → Option (List Str)
  | none => some (server.experimentIds w)
  | some a => if a = [] then some (server.experimentIds w) else (w.mlflow.experiments a).map ([·])

/-- All runs that match, in the requested order. -/
def SearchServer.matching (server : SearchServer) (w : World) (ids : List Str) (args : SearchArgs) :
    List RunRef :=
  (server.found w ids args.filterString (args.orderBy.getD [])).map toRef

theorem exec_ask {q : Query} {r : Except PyExc (QueryResp q)} :
    Exec (Finds server) (ask q) w tr r w' ↔
      ∃ l, Finds server w q l r w' ∧ tr = [⟨q, l, r, w'⟩] := by
  constructor
  · rintro ⟨l, a, w₁, tr', hs, rfl, h⟩
    cases a <;> obtain ⟨rfl, rfl, rfl⟩ := h <;> exact ⟨l, hs, rfl⟩
  · rintro ⟨l, hs, rfl⟩
    refine ⟨l, r, w', [], hs, rfl, ?_⟩
    cases r <;> exact ⟨rfl, rfl, rfl⟩

/-- From a position on, with enough fuel for what remains, the loop collects the first runs. -/
theorem exec_searchPages {pageSize : ℕ} (hps : 0 < pageSize) (fuel : ℕ) : ∀ {refs token tr r},
    refs = (server.matching w ids args).take (token.getD 0) →
    token.getD 0 ≤ (server.matching w ids args).length →
    (server.matching w ids args).length - token.getD 0 < fuel →
    Exec (Finds server) (searchPages ids args pageSize fuel refs token) w tr r w' →
    r = .ok (some ((server.matching w ids args).take args.maxResults)) := by
  induction fuel with
  | zero => exact fun _ _ hf => absurd hf (Nat.not_lt_zero _)
  | succ fuel ih =>
    intro refs token tr r hrefs hle hfuel h
    have hlen : refs.length = token.getD 0 := by rw [hrefs, List.length_take_of_le hle]
    rw [searchPages] at h
    split_ifs at h with hlt
    · rcases exec_bind.1 h with ⟨e, he, -⟩ | ⟨page, tr₁, tr₂, w₁, h₁, h₂, -⟩
      · obtain ⟨l, ⟨-, -, page, ha, -⟩, -⟩ := exec_ask.1 he
        cases ha
      obtain ⟨l, ⟨-, rfl, page', ha, hp⟩, -⟩ := exec_ask.1 h₁
      obtain rfl := Except.ok.inj ha
      have hmatch : (server.matching w₁ ids args).length =
          (server.found w₁ ids args.filterString (args.orderBy.getD [])).length :=
            List.length_map ..
      have hcollect : refs ++ page.items.map toRef =
          ((server.found w₁ ids args.filterString (args.orderBy.getD [])).take (token.getD 0) ++
            page.items).map toRef := by
        rw [hrefs, SearchServer.matching, List.map_append, List.map_take]
      -- a page is not empty unless it is the last, so the position moves on
      have hbound := hp.bound
      rcases hp.collected (hmatch ▸ hle) (by omega) with
        ⟨hn, hend, hall⟩ | ⟨n, hn, rfl, hall, hlt', hmore⟩
      · rw [hn] at h₂
        obtain ⟨-, rfl, rfl⟩ := h₂
        rw [hcollect, hall]
        rfl
      · rw [hn] at h₂
        refine ih ?_ ?_ ?_ h₂
        · rw [hcollect, hall, List.map_take]
          rfl
        · simp only [Option.getD_some]
          omega
        · simp only [Option.getD_some]
          omega
    · obtain ⟨-, rfl, rfl⟩ := h
      rw [hrefs, List.take_take, Nat.min_eq_left (by omega)]

theorem exec_lookupExperiment {aliasName : Str} {r : Except PyExc (Option Str)}
    (h : Exec (Finds server) (asQuery (experimentId aliasName false)) w tr r w') :
    r = .ok (w.mlflow.experiments aliasName) ∧ w' = w := by
  obtain ⟨tr', ⟨l, ans, w₁, tr₁, ⟨hl, hs⟩, -, hk⟩, -⟩ := exec_lift (fun w => w) (R := Finds server)
    (f := Query.base) (g := fun _ a => a) (fun _ _ _ _ _ h => h) h
  obtain rfl : l = .ok := hl
  obtain ⟨rfl, rfl⟩ := hs
  cases hid : w₁.mlflow.experiments aliasName with
  | none =>
    rw [hid] at hk
    obtain ⟨-, rfl, rfl⟩ := hk
    exact ⟨rfl, rfl⟩
  | some id =>
    rw [hid] at hk
    obtain ⟨-, rfl, rfl⟩ := hk
    exact ⟨rfl, rfl⟩

theorem exec_searchScope {aliasName : Option Str} {r : Except PyExc (List Str)}
    (hscope : server.scope w aliasName = some ids)
    (h : Exec (Finds server) (searchScope aliasName) w tr r w') : r = .ok ids ∧ w' = w := by
  have hall : ∀ {tr r w'}, server.experimentIds w = ids →
      Exec (Finds server) (ask .searchExperiments) w tr r w' → r = .ok ids ∧ w' = w :=
        fun hids h => by
    obtain ⟨l, ⟨-, rfl, hr⟩, -⟩ := exec_ask.1 h
    exact ⟨hids ▸ hr, rfl⟩
  cases aliasName with
  | none => exact hall (Option.some.inj hscope) h
  | some a =>
    rw [searchScope] at h
    simp only [SearchServer.scope] at hscope
    split_ifs at h hscope with ha
    · exact hall (Option.some.inj hscope) h
    obtain ⟨id, hid, rfl⟩ := Option.map_eq_some_iff.1 hscope
    rcases exec_bind.1 h with ⟨e, he, -⟩ | ⟨found, tr₁, tr₂, w₁, h₁, h₂, -⟩
    · cases (exec_lookupExperiment he).1
    · obtain ⟨hf, rfl⟩ := exec_lookupExperiment h₁
      obtain rfl := (Except.ok.inj hf).trans hid
      obtain ⟨-, rfl, rfl⟩ := h₂
      exact ⟨rfl, rfl⟩

theorem exec_mlflowSearch {fuel pageSize : ℕ} {r : Except PyExc (Option (List RunRef))}
    (hps : 0 < pageSize) (hscope : server.scope w args.aliasName = some ids)
    (hfuel : (server.matching w ids args).length < fuel)
    (h : Exec (Finds server) (mlflowSearch fuel args pageSize) w tr r w') :
    r = .ok (some ((server.matching w ids args).take args.maxResults)) := by
  rcases exec_bind.1 h with ⟨e, he, -⟩ | ⟨ids', tr₁, tr₂, w₁, h₁, h₂, -⟩
  · cases (exec_searchScope hscope he).1
  obtain ⟨hids, rfl⟩ := exec_searchScope hscope h₁
  obtain rfl := Except.ok.inj hids
  split_ifs at h₂ with hnil
  · obtain ⟨-, rfl, rfl⟩ := h₂
    rw [SearchServer.matching, hnil, server.found_nil]
    simp
  · have hnone : (none : Option ℕ).getD 0 = 0 := rfl
    refine exec_searchPages hps fuel ?_ ?_ ?_ h₂
    · simp
    · exact Nat.zero_le _
    · rwa [hnone, Nat.sub_zero]

theorem exec_search {fuel : ℕ} {includeUnfinished : Bool} {r : Except PyExc (Option (List RunRef))}
    (hscope : server.scope w args.aliasName = some ids)
    (hfuel : (server.matching w ids args).length < fuel)
    (h : Exec (Finds server) (search fuel args includeUnfinished) w tr r w') :
    r = .ok (some (if includeUnfinished then (server.matching w ids args).take args.maxResults
      else ((server.matching w ids args).take args.maxResults).filter isUsable)) := by
  rcases exec_bind.1 h with ⟨e, he, -⟩ | ⟨runs, tr₁, tr₂, w₁, h₁, h₂, -⟩
  · cases exec_mlflowSearch (by decide) hscope hfuel he
  · obtain rfl := Except.ok.inj (exec_mlflowSearch (by decide) hscope hfuel h₁)
    obtain ⟨-, rfl, rfl⟩ := h₂
    cases includeUnfinished <;> rfl

section Exists

/-- The calls of a search: lookups and page requests. -/
def IsRead : Query → Prop
  | .base c => ∃ name, c = .getExperimentByName name
  | _ => True

theorem uses_ask {q : Query} (h : IsRead q) : (ask q).Uses IsRead := uses_perform h

theorem uses_searchPages (ids : List Str) (args : SearchArgs) (pageSize fuel : ℕ)
    (refs : List RunRef) (token : Option ℕ) :
    (searchPages ids args pageSize fuel refs token).Uses IsRead := by
  induction fuel generalizing refs token with
  | zero => trivial
  | succ fuel ih =>
    rw [searchPages]
    split_ifs
    · have hask : (ask (.searchRunsPage ids args.filterString (args.orderBy.getD [])
          (min pageSize (args.maxResults - refs.length)) token)).Uses IsRead := uses_ask trivial
      refine hask.bind fun page => ?_
      cases hn : page.next with
      | none =>
        simp only
        trivial
      | some next =>
        simp only
        exact ih _ _
    · trivial

theorem uses_lookupExperiment {S : Query → Prop} {a : Str}
    (h : S (.base (.getExperimentByName a))) :
    (asQuery (experimentId a false)).Uses S := by
  refine ⟨h, fun ans => ?_⟩
  cases ans with
  | error e => trivial
  | ok found => cases found <;> trivial

theorem uses_searchScope {S : Query → Prop} (hget : ∀ a, S (.base (.getExperimentByName a)))
    (hall : S .searchExperiments) (aliasName : Option Str) : (searchScope aliasName).Uses S := by
  have hexperiments : (ask .searchExperiments).Uses S := uses_perform hall
  unfold searchScope
  cases aliasName with
  | none => exact hexperiments
  | some a =>
    simp only
    split_ifs
    · exact hexperiments
    · refine (uses_lookupExperiment (hget a)).bind fun found => ?_
      cases found <;> trivial

theorem uses_mlflowSearch (fuel : ℕ) (args : SearchArgs) (pageSize : ℕ) :
    (mlflowSearch fuel args pageSize).Uses IsRead := by
  refine Uses.bind (uses_searchScope (fun a => ⟨a, rfl⟩) trivial _) fun ids => ?_
  split_ifs
  · trivial
  · exact uses_searchPages ..

theorem uses_search (fuel : ℕ) (args : SearchArgs) (includeUnfinished : Bool) :
    (search fuel args includeUnfinished).Uses IsRead :=
  (uses_mlflowSearch fuel args 1000).bind fun _ => trivial

/-- A server can always hand out the largest block. -/
theorem exists_isBlock {α : Type} (all : List α) (most start : ℕ) :
    ∃ b, IsBlock all most start b := by
  refine ⟨⟨(all.drop start).take most,
    if start + ((all.drop start).take most).length < all.length then
      some (start + ((all.drop start).take most).length)
    else none⟩, List.take_prefix .., List.length_take_le .., fun hs hm h => ?_, rfl⟩
  have hlen := congrArg List.length h
  simp only [List.length_take, List.length_drop, List.length_nil] at hlen
  omega

theorem finds_answers (server : SearchServer) (w : World) (q : Query) (hq : IsRead q) :
    ∃ l a w', Finds server w q l a w' := by
  cases q with
  | base c =>
    obtain ⟨name, rfl⟩ := hq
    exact ⟨.ok, _, w, rfl, rfl, rfl⟩
  | searchExperiments => exact ⟨.ok, _, w, rfl, rfl, rfl⟩
  | searchRunsPage ids filterString orderBy most token =>
    obtain ⟨b, hb⟩ := exists_isBlock (server.found w ids filterString orderBy) most (token.getD 0)
    exact ⟨.ok, .ok b, w, rfl, rfl, b, rfl, hb⟩

end Exists

/-- A search for usable runs, with a limit, returns the first usable ones exactly when the limit
does not cut them off: no unusable run is among the first matching runs, or no usable one comes
after them. -/
theorem search_firstUsable_iff {fuel : ℕ} (hscope : server.scope w args.aliasName = some ids)
    (hfuel : (server.matching w ids args).length < fuel) :
    (∀ tr r w', Exec (Finds server) (search fuel args false) w tr r w' →
      r = .ok (some (((server.matching w ids args).filter isUsable).take args.maxResults))) ↔
    (∀ run ∈ (server.matching w ids args).take args.maxResults, isUsable run = true) ∨
      ∀ run ∈ (server.matching w ids args).drop args.maxResults, ¬ isUsable run = true := by
  rw [← filter_take_eq_iff]
  constructor
  · intro h
    obtain ⟨tr, r, w', hx⟩ := exec_exists (uses_search fuel args false) (finds_answers server) w
    have h₁ := exec_search hscope hfuel hx
    exact Option.some.inj (Except.ok.inj (h₁.symm.trans (h tr r w' hx)))
  · intro h tr r w' hx
    rw [← h]
    exact exec_search hscope hfuel hx

section Hidden

def failedRun : Run := { newRun ['0'] [] [] none with status := some .failed }
def finishedRun : Run := { newRun ['0'] [] [] none with status := some .finished }

/-- A server that finds the runs it is given, in their order. -/
def finding (runs : List (Str × Run)) : SearchServer where
  experimentIds := fun _ => [['0']]
  found := fun _ ids _ _ => if ids = [] then [] else runs
  found_nil := fun _ _ _ => rfl

def latest : SearchArgs := ⟨none, [], some ["start_time DESC".toList], 1⟩

def latestTwo : SearchArgs := { latest with maxResults := 2 }

/-- The latest run failed, the one before it is usable, and a search for one usable run finds
none. -/
theorem search_hides_usable : ∃ tr w',
    Exec (Finds (finding [(['1'], failedRun), (['0'], finishedRun)])) (search 3 latest false)
      (World.of ['b'] [] [] []) tr (.ok (some [])) w' ∧
    ((((finding [(['1'], failedRun), (['0'], finishedRun)]).matching (World.of ['b'] [] [] [])
      [['0']]
      latest).filter isUsable).take latest.maxResults).map RunRef.runId = [['0']] := by
  obtain ⟨tr, r, w', h⟩ := exec_exists (uses_search 3 latest false)
    (finds_answers (finding [(['1'], failedRun), (['0'], finishedRun)])) (World.of ['b'] [] [] [])
  obtain rfl := exec_search rfl (by decide) h
  exact ⟨tr, w', h, rfl⟩

/-- Here the limit lets every matching run through. -/
theorem search_firstUsable_iff_all : ∃ tr w',
    Exec (Finds (finding [(['1'], failedRun), (['0'], finishedRun)])) (search 3 latestTwo false)
      (World.of ['b'] [] [] []) tr (.ok (some [toRef (['0'], finishedRun)])) w' := by
  have hscope : (finding [(['1'], failedRun), (['0'], finishedRun)]).scope (World.of ['b'] [] [] [])
      latestTwo.aliasName = some [['0']] := rfl
  have hfuel : ((finding [(['1'], failedRun), (['0'], finishedRun)]).matching
      (World.of ['b'] [] [] [])
      [['0']] latestTwo).length < 3 := by decide
  obtain ⟨tr, r, w', h⟩ := exec_exists (uses_search 3 latestTwo false)
    (finds_answers (finding [(['1'], failedRun), (['0'], finishedRun)])) (World.of ['b'] [] [] [])
  obtain rfl := (search_firstUsable_iff hscope hfuel).2 (.inr (by decide)) tr r w' h
  exact ⟨tr, w', h⟩

end Hidden

end Accel.Model
