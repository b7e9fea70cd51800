import AccelProf.Store.Search

/-! The two paging loops against every choice of blocks: what they return, and how many runs they
ask for. -/

namespace Accel.Model
open Data Program Prog

variable {server : SearchServer} {w w' : World} {ids : List Str} {args : SearchArgs} {pageSize : ℕ}
  {tr tr' : List (Step Query Reply Fate World)}

/-- The number of runs an answer brings. -/
def runsIn : (q : Query) → Reply q → ℕ
  | .searchRunsPage .., .ok page => page.items.length
  | _, _ => 0

/-- While `missing` runs are still missing, every page request asks for at least one run, for no
more than a page and for no more than are missing. -/
def AsksWithin (pageSize : ℕ) : ℕ → List (Step Query Reply Fate World) → Prop
  | _, [] => True
  | missing, st :: tr =>
    (match st.call with
      | .searchRunsPage _ _ _ most _ => 0 < most ∧ most ≤ pageSize ∧ most ≤ missing
      | _ => True) ∧ AsksWithin pageSize (missing - runsIn st.call st.answer) tr

def AsksNoPage : Query → Prop
  | .searchRunsPage .. => False
  | _ => True

theorem asksWithin_append {missing : ℕ} (h : ∀ st ∈ tr, AsksNoPage st.call)
    (h' : AsksWithin pageSize missing tr') :
    AsksWithin pageSize missing (tr ++ tr') := by
  induction tr with
  | nil => exact h'
  | cons st tr ih =>
    obtain ⟨hst, htr⟩ := List.forall_mem_cons.1 h
    obtain ⟨c, l, a, w⟩ := st
    cases c with
    | searchRunsPage => exact hst.elim
    | _ => exact ⟨trivial, ih htr⟩

theorem asksWithin_of_noPage {missing : ℕ} (h : ∀ st ∈ tr, AsksNoPage st.call) :
    AsksWithin pageSize missing tr := by
  rw [← List.append_nil tr]
  exact asksWithin_append h trivial

section Limited

/-- The loop of `search` never asks for more than it still needs, nor for nothing. -/
theorem exec_searchPages_asks (hps : 0 < pageSize) (fuel : ℕ) : ∀ {refs token tr} {w : World}
    {r : Except PyExc (Option (List RunRef))},
    Exec (Finds server) (searchPages ids args pageSize fuel refs token) w tr r w' →
    AsksWithin pageSize (args.maxResults - refs.length) tr := by
  induction fuel with
  | zero =>
    rintro refs token tr w r ⟨rfl, -⟩
    trivial
  | succ fuel ih =>
    intro refs token tr w r h
    rw [searchPages] at h
    split_ifs at h with hlt
    · rcases exec_bind.1 h with ⟨e, he, -⟩ | ⟨page, tr₁, tr₂, w₁, h₁, h₂, rfl⟩
      · obtain ⟨l, ⟨-, -, page, ha, -⟩, -⟩ := exec_ask.1 he
        cases ha
      obtain ⟨l, ⟨-, rfl, page', ha, hp⟩, rfl⟩ := exec_ask.1 h₁
      obtain rfl := Except.ok.inj ha
      refine ⟨⟨by omega, by omega, by omega⟩, ?_⟩
      show AsksWithin pageSize (args.maxResults - refs.length - page.items.length) tr₂
      cases hn : page.next with
      | none =>
        rw [hn] at h₂
        obtain ⟨rfl, -⟩ := h₂
        trivial
      | some next =>
        rw [hn] at h₂
        have hrest := ih h₂
        rwa [List.length_append, List.length_map, ← Nat.sub_sub] at hrest
    · obtain ⟨rfl, -⟩ := h
      trivial

theorem exec_mlflowSearch_asks {fuel : ℕ} {r : Except PyExc (Option (List RunRef))}
    (hps : 0 < pageSize)
    (h : Exec (Finds server) (mlflowSearch fuel args pageSize) w tr r w') :
    AsksWithin pageSize args.maxResults tr := by
  have hscope : (searchScope args.aliasName).Uses AsksNoPage :=
    uses_searchScope (fun _ => trivial) trivial _
  rcases exec_bind.1 h with ⟨e, he, -⟩ | ⟨ids, tr₁, tr₂, w₁, h₁, h₂, rfl⟩
  · exact asksWithin_of_noPage (hscope.calls he)
  refine asksWithin_append (hscope.calls h₁) ?_
  split_ifs at h₂ with hnil
  · obtain ⟨rfl, -⟩ := h₂
    trivial
  · exact exec_searchPages_asks hps fuel h₂

end Limited

section Whole
variable {expId : Str}

/-- From a position on, with enough fuel for what remains, the loop of `resolve_alias` collects all
runs. -/
theorem exec_aliasPages (hps : 0 < pageSize) (fuel : ℕ) : ∀ {refs token tr r},
    refs = ((server.found w [expId] [] []).take (token.getD 0)).map toRef →
    token.getD 0 ≤ (server.found w [expId] [] []).length →
    (server.found w [expId] [] []).length - token.getD 0 < fuel →
    Exec (Finds server) (aliasPages expId pageSize fuel refs token) w tr r w' →
    r = .ok (some ((server.found w [expId] [] []).map toRef)) := by
  induction fuel with
  | zero => exact fun _ _ hf => absurd hf (Nat.not_lt_zero _)
  | succ fuel ih =>
    intro refs token tr r hrefs hle hfuel h
    rcases exec_bind.1 h with ⟨e, he, -⟩ | ⟨page, tr₁, tr₂, w₁, h₁, h₂, -⟩
    · obtain ⟨l, ⟨-, -, page, ha, -⟩, -⟩ := exec_ask.1 he
      cases ha
    obtain ⟨l, ⟨-, rfl, page', ha, hp⟩, -⟩ := exec_ask.1 h₁
    obtain rfl := Except.ok.inj ha
    have hcollect : refs ++ page.items.map toRef =
        ((server.found w₁ [expId] [] []).take (token.getD 0) ++ page.items).map toRef := by
      rw [hrefs, List.map_append]
    rcases hp.collected hle hps with ⟨hn, -, hall⟩ | ⟨n, hn, rfl, hall, hlt, hmore⟩
    · rw [hn] at h₂
      obtain ⟨-, rfl, rfl⟩ := h₂
      rw [hcollect, hall]
    · rw [hn] at h₂
      refine ih ?_ ?_ ?_ h₂
      · rw [hcollect, hall]
        rfl
      · exact hmore.le
      · simp only [Option.getD_some]
        omega

theorem exec_resolveAliasPages {fuel : ℕ} {aliasName : Str}
    {r : Except PyExc (Option (List RunRef))}
    (hps : 0 < pageSize) (hid : w.mlflow.experiments aliasName = some expId)
    (hfuel : (server.found w [expId] [] []).length < fuel)
    (h : Exec (Finds server) (resolveAliasPages fuel aliasName pageSize) w tr r w') :
    r = .ok (some ((server.found w [expId] [] []).map toRef)) := by
  rcases exec_bind.1 h with ⟨e, he, -⟩ | ⟨found, tr₁, tr₂, w₁, h₁, h₂, -⟩
  · cases (exec_lookupExperiment he).1
  obtain ⟨hfound, rfl⟩ := exec_lookupExperiment h₁
  obtain rfl := Except.ok.inj hfound
  rw [hid] at h₂
  have hnone : (none : Option ℕ).getD 0 = 0 := rfl
  refine exec_aliasPages hps fuel ?_ ?_ ?_ h₂
  · simp
  · exact Nat.zero_le _
  · rwa [hnone, Nat.sub_zero]

theorem uses_aliasPages (expId : Str) (pageSize fuel : ℕ) (refs : List RunRef) (token : Option ℕ) :
    (aliasPages expId pageSize fuel refs token).Uses IsRead := by
  induction fuel generalizing refs token with
  | zero => trivial
  | succ fuel ih =>
    have hask : (ask (.searchRunsPage [expId] [] [] pageSize token)).Uses IsRead := uses_ask trivial
    refine hask.bind fun page => ?_
    cases hn : page.next with
    | none =>
      simp only
      trivial
    | some next =>
      simp only
      exact ih _ _

theorem uses_resolveAliasPages (fuel : ℕ) (aliasName : Str) (pageSize : ℕ) :
    (resolveAliasPages fuel aliasName pageSize).Uses IsRead := by
  refine (uses_lookupExperiment ⟨aliasName, rfl⟩).bind fun found => ?_
  cases found with
  | none => trivial
  | some id => exact uses_aliasPages id pageSize fuel [] none

end Whole

/-- Paging loses and repeats nothing: whatever blocks the server chooses, and given as many rounds
as there are runs, and one more, `search` comes to an end with the first runs up to its limit and
`resolve_alias` with all runs, in order; `search` never asks for more than it still needs, nor for
nothing. -/
theorem paging_exact (server : SearchServer) (w : World) (hps : 1 ≤ pageSize) :
    (∀ (args : SearchArgs) (ids : List Str) (fuel : ℕ), server.scope w args.aliasName = some ids →
      (server.matching w ids args).length < fuel →
      (∃ tr r w', Exec (Finds server) (mlflowSearch fuel args pageSize) w tr r w') ∧
      ∀ tr r w', Exec (Finds server) (mlflowSearch fuel args pageSize) w tr r w' →
        r = .ok (some ((server.matching w ids args).take args.maxResults)) ∧
          AsksWithin pageSize args.maxResults tr) ∧
    ∀ (aliasName expId : Str) (fuel : ℕ), w.mlflow.experiments aliasName = some expId →
      (server.found w [expId] [] []).length < fuel →
      (∃ tr r w', Exec (Finds server) (resolveAliasPages fuel aliasName pageSize) w tr r w') ∧
      ∀ tr r w', Exec (Finds server) (resolveAliasPages fuel aliasName pageSize) w tr r w' →
        r = .ok (some ((server.found w [expId] [] []).map toRef)) := by
  constructor
  · intro args ids fuel hscope hfuel
    refine ⟨exec_exists (uses_mlflowSearch fuel args pageSize) (finds_answers server) w,
      fun tr r w' h => ?_⟩
    exact ⟨exec_mlflowSearch hps hscope hfuel h, exec_mlflowSearch_asks hps h⟩
  · intro aliasName expId fuel hid hfuel
    refine ⟨exec_exists (uses_resolveAliasPages fuel aliasName pageSize) (finds_answers server) w,
      fun tr r w' h => ?_⟩
    exact exec_resolveAliasPages hps hid hfuel h

/-- Two runs, one to a page, and a limit of two. -/
theorem paging_exact_sample : ∃ tr w',
    Exec (Finds (finding [(['1'], failedRun), (['0'], finishedRun)])) (mlflowSearch 3 latestTwo 1)
      (World.of ['b'] [] [] []) tr
      (.ok (some [toRef (['1'], failedRun), toRef (['0'], finishedRun)])) w' := by
  obtain ⟨hsearch, -⟩ :=
    paging_exact (finding [(['1'], failedRun), (['0'], finishedRun)]) (World.of ['b'] [] [] [])
    (le_refl 1)
  obtain ⟨⟨tr, r, w', h⟩, hall⟩ := hsearch latestTwo [['0']] 3 rfl (by decide)
  obtain ⟨rfl, -⟩ := hall tr r w' h
  exact ⟨tr, w', h⟩

end Accel.Model
