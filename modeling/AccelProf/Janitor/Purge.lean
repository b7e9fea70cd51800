import AccelProf.Janitor.Survey

/-! The deletions of a sweep: every orphan goes through its URI, the parser may refuse it or read
another key from it, and what is removed is what lies under that key. -/

namespace Accel.Model
open Data Program Prog

variable {F : Call → Fate → Prop} {w w' : World} {tr : List (Step Call Ans Fate World)}
  {j : Janitor} {ask : Str → Except PyExc (Str × Run)}

/-- The prefixes the purge loop gets to: it stops at the first one the parser refuses. -/
def reached (pres : List Key) : List Key := pres.takeWhile (!isRefused ·)

/-- What the purge loop over `pres` has done to the bucket `m` when it ends with `r`: the keys
`removed` are gone. -/
structure Purged (F : Call → Fate → Prop) (j : Janitor) (m : Bucket) (pres : List Key)
    (report : SweepReport) (removed : List Key) (r : Except PyExc SweepReport) : Prop where
  sound : ∀ k ∈ removed, k ∈ m ∧ ∃ p ∈ reached pres, uriKey p <+: k
  full : ListsOk F → DeletesOk F → ∀ p ∈ reached pres, ∀ k ∈ m, uriKey p <+: k → k ∈ removed
  returned : ∀ rep, r = .ok rep → (∀ p ∈ pres, isRefused p = false) ∧
    (∀ p ∈ pres, ∀ k ∈ m, uriKey p <+: k → k ∈ removed) ∧
    ∃ n, rep = { report with deletedObjects := n, purged := report.purged ++ j.uris pres }
  returns : ListsOk F → DeletesOk F → (∀ p ∈ pres, isRefused p = false) → ∃ rep, r = .ok rep
  noAbort : ∀ e, r = .error e → e.isJanitorAbort = false

theorem reached_eq_self {pres : List Key} (h : ∀ p ∈ pres, isRefused p = false) :
    reached pres = pres := List.takeWhile_eq_self_iff.2 fun p hp => by simp [h p hp]

theorem reached_cons {p : Key} {ps : List Key} (h : isRefused p = false) :
    reached (p :: ps) = p :: reached ps := List.takeWhile_cons_of_pos (by simp [h])

theorem reached_cons_refused {p : Key} {ps : List Key} (h : isRefused p = true) :
    reached (p :: ps) = [] := List.takeWhile_cons_of_neg (by simp [h])

theorem exec_purgeOrphan {p : Key} (hp : IsTwoField '/' p) (hne : uriKey p ≠ [])
    (hrf : isRefused p = false) {report : SweepReport} {r : Except PyExc SweepReport}
    (h : Exec (Serves F) (Janitor.purgeOrphan report (s3Uri j.bucket.name p)) w tr r w') :
    ∃ removed, w' = w.deleteKeys j.bucket.name removed ∧
      (∀ k ∈ removed, k ∈ w.s3 j.bucket.name ∧ uriKey p <+: k) ∧
      (∀ rep, r = .ok rep → (∀ k ∈ w.s3 j.bucket.name, uriKey p <+: k → k ∈ removed) ∧
        ∃ n, rep = { report with
          deletedObjects := n, purged := report.purged ++ [s3Uri j.bucket.name p] }) ∧
      (ListsOk F → DeletesOk F → ∃ rep, r = .ok rep) ∧
      ∀ e, r = .error e → e.isJanitorAbort = false := by
  have hparse := parseS3Uri_runPrefix j.bucket hp
  rw [hrf, if_neg (by simp)] at hparse
  simp only [Janitor.purgeOrphan, bind_eq, pure_eq] at h
  rcases exec_bind.1 h with ⟨e, he, rfl⟩ | ⟨n, tr₁, tr₂, w₁, h₁, ⟨-, rfl, rfl⟩, -⟩
  · obtain ⟨removed, hsub, hw, -, hok, herr⟩ := exec_deletePrefix hparse hne he
    refine ⟨removed, hw, hsub, by simp, fun hl hd => ?_, fun e' he' => ?_⟩
    · simpa using hok hl hd
    · exact herr e' (by rw [Except.error.inj he'])
  · obtain ⟨removed, hsub, hw, hok, -, -⟩ := exec_deletePrefix hparse hne h₁
    obtain ⟨hall, -⟩ := hok n rfl
    refine ⟨removed, hw, hsub, fun rep hrep => ⟨fun k hk hpk => ?_, _, (Except.ok.inj hrep).symm⟩,
      fun _ _ => ⟨_, rfl⟩, by simp⟩
    rw [hall]
    exact Bucket.mem_under_keys.2 ⟨hk, hpk⟩

theorem exec_purgeRefused {p : Key} (hp : IsTwoField '/' p) (hrf : isRefused p = true)
    {report : SweepReport} {r : Except PyExc SweepReport}
    (h : Exec (Serves F) (Janitor.purgeOrphan report (s3Uri j.bucket.name p)) w tr r w') :
    w' = w ∧ r = .error (.queryOrFragment (s3Uri j.bucket.name p)) := by
  have hparse := parseS3Uri_runPrefix j.bucket hp
  rw [hrf, if_pos rfl] at hparse
  simp only [Janitor.purgeOrphan, deletePrefix, hparse, ofExcept_error, bind_eq, raise_bind] at h
  exact ⟨h.2.2, h.2.1⟩

/-- The loop over the orphans, each with a two-field prefix whose URI does not name the whole
bucket. -/
theorem exec_purgeLoop {pres : List Key} (hp : ∀ p ∈ pres, IsTwoField '/' p ∧ uriKey p ≠ [])
    {report : SweepReport} {r : Except PyExc SweepReport}
    (h : Exec (Serves F) ((j.uris pres).foldlM Janitor.purgeOrphan report) w tr r w') :
    ∃ removed, w' = w.deleteKeys j.bucket.name removed ∧
      Purged F j (w.s3 j.bucket.name) pres report removed r := by
  induction pres generalizing w tr report with
  | nil =>
    obtain ⟨-, rfl, rfl⟩ := h
    refine ⟨[], by rw [World.deleteKeys_nil], ⟨by simp, by simp [reached], fun rep hrep => ?_,
      fun _ _ _ => ⟨_, rfl⟩, by simp⟩⟩
    exact ⟨by simp, by simp, report.deletedObjects, by simp [Janitor.uris, ← Except.ok.inj hrep]⟩
  | cons p ps ih =>
    obtain ⟨⟨h2, hne⟩, hps⟩ := List.forall_mem_cons.1 hp
    simp only [Janitor.uris, List.map_cons, List.foldlM_cons, bind_eq] at h
    cases hrf : isRefused p with
    | true =>
      -- a refused URI ends the loop before its first call
      rcases exec_bind.1 h with ⟨e, he, rfl⟩ | ⟨report', tr₁, tr₂, w₁, h₁, -, -⟩
      · obtain ⟨rfl, hr⟩ := exec_purgeRefused h2 hrf he
        refine ⟨[], by rw [World.deleteKeys_nil], ⟨by simp, ?_, by simp, ?_, ?_⟩⟩
        · simp [reached_cons_refused hrf]
        · exact fun _ _ hall => absurd (hall p (by simp)) (by simp [hrf])
        · rintro _ ⟨⟩
          rw [Except.error.inj hr]
          rfl
      · obtain ⟨-, hr⟩ := exec_purgeRefused h2 hrf h₁
        cases hr
    | false =>
      rcases exec_bind.1 h with ⟨e, he, rfl⟩ | ⟨report', tr₁, tr₂, w₁, h₁, h₂, -⟩
      · obtain ⟨removed, hw, hsub, -, hok, herr⟩ := exec_purgeOrphan h2 hne hrf he
        refine ⟨removed, hw, ⟨fun k hk => ?_, fun hl hd => ?_, by simp, fun hl hd => ?_, ?_⟩⟩
        · exact ⟨(hsub k hk).1, p, by simp [reached_cons hrf], (hsub k hk).2⟩
        · simpa using hok hl hd
        · simpa using hok hl hd
        · rintro _ ⟨⟩
          exact herr e rfl
      · obtain ⟨rm₁, rfl, hsub, hok, -, -⟩ := exec_purgeOrphan h2 hne hrf h₁
        obtain ⟨hall₁, n, rfl⟩ := hok _ rfl
        obtain ⟨rm₂, rfl, hP⟩ := ih hps h₂
        have hmem : ∀ {k}, k ∈ (w.deleteKeys j.bucket.name rm₁).s3 j.bucket.name ↔
            k ∈ w.s3 j.bucket.name ∧ k ∉ rm₁ := World.mem_deleteKeys
        -- what a later orphan asks for may be gone with this one already
        have hlater : ∀ {q k}, (k ∈ (w.deleteKeys j.bucket.name rm₁).s3 j.bucket.name →
            uriKey q <+: k → k ∈ rm₂) → k ∈ w.s3 j.bucket.name → uriKey q <+: k →
            k ∈ rm₁ ++ rm₂ := fun {q k} hq hk hpk => by
          by_cases hk₁ : k ∈ rm₁
          · exact List.mem_append_left _ hk₁
          · exact List.mem_append_right _ (hq (hmem.2 ⟨hk, hk₁⟩) hpk)
        refine ⟨rm₁ ++ rm₂, by rw [World.deleteKeys_append],
          ⟨fun k hk => ?_, fun hl hd q hq k hk hpk => ?_, fun rep hrep => ?_, fun hl hd hall => ?_,
            hP.noAbort⟩⟩
        · rw [reached_cons hrf]
          rcases List.mem_append.1 hk with hk | hk
          · exact ⟨(hsub k hk).1, p, by simp, (hsub k hk).2⟩
          · obtain ⟨hk', q, hq, hqk⟩ := hP.sound k hk
            exact ⟨(hmem.1 hk').1, q, by simp [hq], hqk⟩
        · rw [reached_cons hrf] at hq
          rcases List.mem_cons.1 hq with rfl | hq
          · exact List.mem_append_left _ (hall₁ k hk hpk)
          · exact hlater (hP.full hl hd q hq k) hk hpk
        · obtain ⟨hnr, hall₂, m, rfl⟩ := hP.returned rep hrep
          refine ⟨List.forall_mem_cons.2 ⟨hrf, hnr⟩, fun q hq k hk hpk => ?_, m, ?_⟩
          · rcases List.mem_cons.1 hq with rfl | hq
            · exact List.mem_append_left _ (hall₁ k hk hpk)
            · exact hlater (hall₂ q hq k) hk hpk
          · simp [Janitor.uris]
        · exact hP.returns hl hd fun q hq => hall q (by simp [hq])

theorem twoField_of_orphan {m : Bucket} {v : Key → Verdict} {p : Key}
    (hv : ∀ pre ∈ m.runPrefixes, j.judge m (tellOf ask) pre = .ok (v pre))
    (hp : p ∈ m.runPrefixes.filter (v · = .orphan)) : IsTwoField '/' p ∧ uriKey p ≠ [] := by
  obtain ⟨hp, ho⟩ := List.mem_filter.1 hp
  have h2 := (Bucket.mem_runPrefixes.1 hp).1
  refine ⟨h2, uriKey_ne_nil h2 ?_⟩
  have hj := hv p hp
  rw [of_decide_eq_true ho, Janitor.judge] at hj
  split_ifs at hj with h₁ h₂
  · cases hj
  · cases hj
  · simpa using h₂

/-- A sweep either changes nothing, because a listing failed, the survey aborted or the breaker
tripped, or purges the orphans of a survey it completed. -/
theorem exec_sweep (ho : Oracle F w ask) {r : Except PyExc SweepReport}
    (h : Exec (Serves F) (j.sweep true) w tr r w') :
    (w' = w ∧ ((¬ ListsOk F ∧ ∃ e, r = .error (.service e)) ∨
      (∃ e, j.survey (w.s3 j.bucket.name) ask = .error e ∧ r = .error e) ∨
      ∃ rep, j.survey (w.s3 j.bucket.name) ask = .ok rep ∧ j.ratioTripped rep = true ∧
        r = .error (.janitorRatio rep.orphans.length
          (Janitor.considered rep).toNat j.maxOrphanFraction))) ∨
    ∃ v : Key → Verdict, checkCanary ask = .ok () ∧
      (∀ pre ∈ (w.s3 j.bucket.name).runPrefixes,
        j.judge (w.s3 j.bucket.name) (tellOf ask) pre = .ok (v pre)) ∧
      j.ratioTripped (j.report (w.s3 j.bucket.name) v) = false ∧
      ∃ removed, w' = w.deleteKeys j.bucket.name removed ∧
        Purged F j (w.s3 j.bucket.name)
          ((w.s3 j.bucket.name).runPrefixes.filter (v · = .orphan))
          (j.report (w.s3 j.bucket.name) v) removed r := by
  simp only [Janitor.sweep, bind_eq, Bool.not_true, Bool.false_eq_true, if_false] at h
  rcases exec_bind.1 h with ⟨e, he, rfl⟩ | ⟨rep, tr₁, tr₂, w₁, h₁, h₂, -⟩
  · obtain ⟨rfl, hr | ⟨hl, e', hr⟩⟩ := reads_findOrphans ho _ _ _ he
    · exact .inl ⟨rfl, .inr (.inl ⟨e, hr.symm, rfl⟩)⟩
    · exact .inl ⟨rfl, .inl ⟨hl, e', by rw [Except.error.inj hr]⟩⟩
  obtain ⟨rfl, hr | ⟨-, e', hr⟩⟩ := reads_findOrphans ho _ _ _ h₁
  swap
  · cases hr
  cases ht : j.ratioTripped rep with
  | true =>
    rw [ht, if_pos rfl] at h₂
    obtain ⟨-, rfl, rfl⟩ := h₂
    exact .inl ⟨rfl, .inr (.inr ⟨rep, hr.symm, ht, rfl⟩)⟩
  | false =>
    rw [ht, if_neg (by simp)] at h₂
    rcases survey_cases j (w₁.s3 j.bucket.name) ask with ⟨v, hc, hv, hs⟩ | ⟨-, e, hs, -⟩
    · obtain rfl := Except.ok.inj (hr.trans hs)
      exact .inr ⟨v, hc, hv, ht, exec_purgeLoop (fun p hp => twoField_of_orphan hv hp) h₂⟩
    · rw [hs] at hr
      cases hr

theorem exec_dryRun (ho : Oracle F w ask) {r : Except PyExc SweepReport}
    (h : Exec (Serves F) (j.sweep false) w tr r w') : w' = w ∧
      (r = j.survey (w.s3 j.bucket.name) ask ∨ (¬ ListsOk F ∧ ∃ e, r = .error (.service e))) := by
  rw [Janitor.sweep, bind_eq] at h
  exact reads_findOrphans ho _ _ _ (bind_ret j.findOrphans ▸ h)

end Accel.Model
