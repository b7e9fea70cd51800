import AccelProf.Janitor.Breaker

/-! What a sweep collects when every call succeeds. The parser may refuse an orphan's URI or read
another prefix from it. -/

namespace Accel.Model
open Data Program Prog

variable {j : Janitor} {w w' : World} {tr : List (Step Call Ans Fate World)}

/-- The two outcomes a sweep may have: nothing was touched, or every orphan was collected. -/
def Janitor.Collects (j : Janitor) (w : World) (r : Except PyExc SweepReport) (w' : World) : Prop :=
  ((∃ e, r = .error e ∧ e.isJanitorAbort = true) ∧ w' = w) ∨
  ∃ rep, r = .ok rep ∧ rep.purged = rep.orphans ∧
    ∀ p, s3Uri j.bucket.name p ∈ rep.orphans → ∀ k ∈ w'.s3 j.bucket.name, ¬ p <+: k

/-- No orphan's URI is refused, and what lies under an orphan lies under the key that the URI of
some orphan parses to. -/
def Janitor.Collectible (j : Janitor) (w : World) : Prop :=
  ∀ p, j.IsOrphan w p → isRefused p = false ∧
    ∀ k ∈ w.s3 j.bucket.name, p <+: k → ∃ q, j.IsOrphan w q ∧ uriKey q <+: k

/-- With every call served, all sweeps of a bucket collect its orphans or abort exactly when the
breaker trips or the orphans survive the way through their URIs. -/
theorem sweep_collects_iff (j : Janitor) (w : World) :
    (∀ tr r w', Exec (Serves Reliable) (j.sweep true) w tr r w' → j.Collects w r w') ↔
      j.BreakerTrips (w.s3 j.bucket.name) w.ask ∨ j.Collectible w := by
  constructor
  · refine fun hall => or_iff_not_imp_left.2 fun hb p hp => ?_
    have ht : j.ratioTripped (j.plan w) = false := by
      rwa [← Bool.not_eq_true, ratioTripped_plan]
    obtain ⟨tr, r, removed, h, hP⟩ := exists_purging ht
    rcases hall tr r _ h with ⟨⟨e, rfl, he⟩, -⟩ | ⟨rep, rfl, -, hgone⟩
    · rw [hP.noAbort e rfl] at he
      cases he
    obtain ⟨hnr, -, n, rfl⟩ := hP.returned rep rfl
    have hmem := mem_orphanPrefixes_iff.2 hp
    refine ⟨hnr p hmem, fun k hk hpk => ?_⟩
    by_cases hkr : k ∈ removed
    · obtain ⟨-, q, hq, hqk⟩ := hP.sound k hkr
      rw [reached_eq_self hnr] at hq
      exact ⟨q, mem_orphanPrefixes_iff.1 hq, hqk⟩
    · exact absurd hpk (hgone p (mem_uris.2 hmem) k (World.mem_deleteKeys.2 ⟨hk, hkr⟩))
  · intro hcond tr r w' h
    rcases exec_sweep_ask (fun _ _ hl => hl) h with
      ⟨hw, ⟨hl, -⟩ | ⟨-, hr⟩⟩ | ⟨ht, removed, rfl, hP⟩
    · exact absurd listsOk_reliable hl
    · exact .inl ⟨hr, hw⟩
    -- the sweep went on to purge, so the breaker has not tripped
    have hcol : j.Collectible w := hcond.resolve_left fun hb => by
      rw [ratioTripped_plan.2 hb] at ht
      cases ht
    have hnr : ∀ p ∈ j.orphanPrefixes w, isRefused p = false := fun p hp =>
      (hcol p (mem_orphanPrefixes_iff.1 hp)).1
    obtain ⟨rep, rfl⟩ := hP.returns listsOk_reliable deletesOk_reliable hnr
    obtain ⟨-, hall, n, rfl⟩ := hP.returned rep rfl
    refine .inr ⟨_, rfl, rfl, fun p hp k hk hpk => ?_⟩
    obtain ⟨hk, hkr⟩ := World.mem_deleteKeys.1 hk
    obtain ⟨q, hq, hqk⟩ := (hcol p (mem_orphanPrefixes_iff.1 (mem_uris.1 hp))).2 k hk hpk
    exact hkr (hall q (mem_orphanPrefixes_iff.2 hq) k hk hqk)

/-- Two orphans, the second under an alias with a question mark. -/
def questionMark : World :=
  .of ['b'] [runPrefix ['a'] (sampleRunId '0') ++ ['x'],
    runPrefix ['a', '?'] (sampleRunId '1') ++ ['x']] [] []

/-- The first orphan is purged, then the URI of the second one raises. -/
theorem sweep_raises_questionMark : ∃ tr e w',
    Exec (Serves Reliable) (sampleJanitor.sweep true) questionMark tr (.error e) w' ∧
      e.isJanitorAbort = false ∧
      runPrefix ['a'] (sampleRunId '0') ++ ['x'] ∈ questionMark.s3 ['b'] ∧
      runPrefix ['a'] (sampleRunId '0') ++ ['x'] ∉ w'.s3 ['b'] := by
  obtain ⟨tr, r, removed, h, hP⟩ := exists_purging (j := sampleJanitor) (w := questionMark)
    (by decide +kernel)
  cases r with
  | ok rep =>
    have := (hP.returned rep rfl).1 (runPrefix ['a', '?'] (sampleRunId '1')) (by decide +kernel)
    exact absurd this (by decide +kernel)
  | error e =>
    refine ⟨tr, e, _, h, hP.noAbort e rfl, by decide +kernel, fun hk => ?_⟩
    refine (World.mem_deleteKeys.1 hk).2 (hP.full listsOk_reliable deletesOk_reliable
      (runPrefix ['a'] (sampleRunId '0')) ?_ _ ?_ ?_) <;> decide +kernel

end Accel.Model
