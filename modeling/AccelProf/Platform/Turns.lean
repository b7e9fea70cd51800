import AccelProf.Platform.Ownership

/-! The turns of producers and collectors, call by call, and the contract each thread works
under. -/

namespace Accel.Model
open Data Program Prog

variable {ι : Type} {P : Parties ι} {i : ι} {s s' : State ι} {F : Call → Fate → Prop} {l : Fate}
  {id b : Str} {run : Run}

/-- Between its calls a thread sees a consistent platform; a collector counts on dead runs staying
dead, a producer also on its own run and its objects. -/
def contract (P : Parties ι) (i : ι) : Contract Call Ans (State ι) where
  inv := Consistent P
  rely := fun s s' => Lasting s s' ∧ (¬ P.collector i → Others i s s')
  guar := fun s _ _ s' => Consistent P s' ∧ Lasting s s' ∧ ∀ j, j ≠ i → Others j s s'
  rely_refl := fun s => ⟨.refl s, fun _ => .refl i s⟩
  rely_trans := fun h h' => ⟨h.1.trans h'.1, fun hi => (h.2 hi).trans (h'.2 hi)⟩

theorem Turn.guar {st : Step Call Ans Fate World} (h : Turn P i s st s') (hs : Consistent P s)
    {c : Call} {a : Ans c} : (contract P i).guar s c a s' :=
  ⟨h.consistent hs, h.lasting, fun _ hj => h.others hs hj⟩

/-- A call that changes neither objects nor runs. -/
theorem turn_still {c : Call} {a : Ans c} (hJ : s'.2 = s.2 ++ [(i, ⟨c, l, a, s'.1⟩)])
    (hs3 : s'.1.s3 = s.1.s3) (hruns : s'.1.mlflow.runs = s.1.mlflow.runs)
    (hc : createdId ⟨c, l, a, s'.1⟩ = none) (hu : uploadedKey ⟨c, l, a, s'.1⟩ = none)
    (hr : ∀ b keys, c ≠ .deleteObjects b keys) : Turn P i s ⟨c, l, a, s'.1⟩ s' where
  journal := hJ
  runs := fun id run h => ⟨run, by rw [hruns, h], .inl rfl⟩
  fresh := fun id run' h h' => by
    rw [hruns, h] at h'
    cases h'
  creates := fun id h => by cases hc.symm.trans h
  keys := fun b k h => .inl (by rwa [hs3] at h)
  kept := fun b k h h' => absurd (by rwa [hs3]) h'
  uploads := fun b k h => by cases hu.symm.trans h
  finish := fun id run run' _ h hst h' hst' => by
    rw [hruns, h] at h'
    cases h'
    cases hst.symm.trans hst'
  collects := fun _ b k h => absurd h (not_removes hr)

/-- A batch delete of objects that are garbage, or that belong to the thread's unfinished run. -/
theorem turn_delete {keys : List Key} {a : Ans (.deleteObjects b keys)}
    (h : Journaled (Serves F) i s (.deleteObjects b keys) l a s')
    (hk : ∀ k ∈ keys, ∃ id, isRunId id = true ∧ IsKeyOf id k ∧ (Dead id s.1 ∨
      Creates s.2 i id ∧ ∃ run, s.1.mlflow.runs id = some run ∧ run.status = some .running))
    (hj : P.collector i → ∀ k ∈ keys, ∃ j id, Creates s.2 j id ∧ IsKeyOf id k ∧ Dead id s.1) :
    Turn P i s ⟨.deleteObjects b keys, l, a, s'.1⟩ s' := by
  obtain ⟨hs, hJ⟩ := h
  have hw := serves_deleteObjects_eq hs
  have hruns : s'.1.mlflow.runs = s.1.mlflow.runs := by rw [hw]; rfl
  exact {
    journal := hJ
    runs := fun id run h => ⟨run, by rw [hruns, h], .inl rfl⟩
    fresh := fun id run' h h' => by
      rw [hruns, h] at h'
      cases h'
    creates := fun id h => by cases h
    keys := fun b' k h => .inl (by
      rw [hw] at h
      exact World.mem_of_mem_deleteKeys h)
    kept := fun b' k h h' => by
      by_cases hb : b' = b
      · subst hb
        rw [hw, World.mem_deleteKeys, not_and, not_not] at h'
        exact hk k (List.mem_of_mem_filter (h' h))
      · rw [hw, World.deleteKeys, World.setBucket_s3_ne hb] at h'
        exact absurd h h'
    uploads := fun b' k h => by cases h
    finish := fun id run run' _ h hst h' hst' => by
      rw [hruns, h] at h'
      cases h'
      cases hst.symm.trans hst'
    collects := fun hi b' k hr => by
      obtain ⟨keys', hc, hk', -⟩ := hr
      cases hc
      exact hj hi k hk' }

theorem turn_upload {path : Str} {key : Key} {body : Bytes} {hex al : Str}
    {a : Ans (.uploadFile path b key body hex)}
    (h : Journaled (Serves F) i s (.uploadFile path b key body hex) l a s')
    (hal : safeId al = true) (hp : runPrefix al id <+: key) (hown : Creates s.2 i id)
    (honly : ∀ id', Creates s.2 i id' → id' = id) :
    Turn P i s ⟨.uploadFile path b key body hex, l, a, s'.1⟩ s' ∧ s'.1.mlflow = s.1.mlflow ∧
      ∀ b', ∀ k ∈ s.1.s3 b', k ∈ s'.1.s3 b' := by
  obtain ⟨⟨-, hs⟩, hJ⟩ := h
  -- an upload whose answer is lost has put its object
  have hcase : (s'.1 = s.1 ∧ uploadedKey ⟨.uploadFile path b key body hex, l, a, s'.1⟩ = none) ∨
      (∃ t, s'.1 = s.1.setBucket b ((s.1.s3 b).put key ⟨t, body, some hex⟩)) ∧
        uploadedKey ⟨.uploadFile path b key body hex, l, a, s'.1⟩ = some (b, key) := by
    cases l with
    | ok => exact .inr ⟨hs.2, rfl⟩
    | perKey errs => exact hs.elim
    | fail e => exact .inl ⟨hs.2, rfl⟩
    | lost e =>
      obtain ⟨-, a', -, t, hw⟩ := hs
      exact .inr ⟨⟨t, hw⟩, rfl⟩
  rcases hcase with ⟨hw, hu⟩ | ⟨⟨t, hw⟩, hu⟩
  · exact ⟨turn_still hJ (by rw [hw]) (by rw [hw]) rfl hu (by simp), by rw [hw],
      fun b' k hk => by rwa [hw]⟩
  have hml : s'.1.mlflow = s.1.mlflow := by rw [hw]; rfl
  have hkey : ∀ b' k, k ∈ s'.1.s3 b' ↔ k ∈ s.1.s3 b' ∨ b' = b ∧ k = key := fun b' k => by
    rw [hw, World.mem_setBucket_put]
  refine ⟨?_, hml, fun b' k hk => (hkey b' k).2 (.inl hk)⟩
  exact {
    journal := hJ
    runs := fun id run h => ⟨run, by rw [hml, h], .inl rfl⟩
    fresh := fun id run' h h' => by
      rw [hml, h] at h'
      cases h'
    creates := fun id h => by cases h
    keys := fun b' k hk => ((hkey b' k).1 hk).imp_right fun ⟨_, hk⟩ =>
      ⟨al, id, hal, hk ▸ hp, hown⟩
    kept := fun b' k hk hk' => absurd ((hkey b' k).2 (.inl hk)) hk'
    uploads := fun b' k h => by
      cases hu.symm.trans h
      exact ⟨(hkey _ _).2 (.inr ⟨rfl, rfl⟩), fun id' hc =>
        ⟨al, slash_not_mem_of_safeId hal, honly id' hc ▸ hp⟩⟩
    finish := fun id run run' _ h hst h' hst' => by
      rw [hml, h] at h'
      cases h'
      cases hst.symm.trans hst'
    collects := fun _ b' k hr => absurd hr (not_removes (by simp)) }

theorem turn_write {c : Call} {a : Ans c} {run' : Run}
    (hJ : s'.2 = s.2 ++ [(i, ⟨c, l, a, s'.1⟩)]) (hw : s'.1 = s.1.withRun id run')
    (hc : createdId ⟨c, l, a, s'.1⟩ = none) (hu : uploadedKey ⟨c, l, a, s'.1⟩ = none)
    (hr : ∀ b keys, c ≠ .deleteObjects b keys) (hown : Creates s.2 i id)
    (hrun : s.1.mlflow.runs id = some run) (hst : run.status = some .running)
    (hl : run'.lifecycleStage = run.lifecycleStage) (huri : UriOk id run → UriOk id run')
    (hfin : run'.status = some .finished → run'.lifecycleStage = .active →
      ∀ b k, Uploads s.2 i b k → k ∈ s.1.s3 b) : Turn P i s ⟨c, l, a, s'.1⟩ s' := by
  have hruns : ∀ id', s'.1.mlflow.runs id' = if id' = id then some run' else s.1.mlflow.runs id' :=
    fun id' => by
      split_ifs with h
      · rw [hw, h, World.withRun_runs_self]
      · rw [hw, World.withRun_runs_ne h]
  exact {
    journal := hJ
    runs := fun id' r h => by
      rw [hruns]
      split_ifs with hi
      · subst hi
        cases h.symm.trans hrun
        exact ⟨run', rfl, .inr ⟨hown, hst, hl, huri⟩⟩
      · exact ⟨r, h, .inl rfl⟩
    fresh := fun id' r h h' => by
      rw [hruns] at h'
      split_ifs at h' with hi
      · subst hi
        cases h.symm.trans hrun
      · cases h.symm.trans h'
    creates := fun id h => by cases hc.symm.trans h
    keys := fun b k hk => .inl (by rwa [hw] at hk)
    kept := fun b k hk hk' => absurd (by rwa [hw]) hk'
    uploads := fun b k h => by cases hu.symm.trans h
    finish := fun id' r r' hci h hrn h' hst' hl' b k hup => by
      rw [hruns] at h'
      split_ifs at h' with hi
      · cases h'
        rw [hw]
        exact hfin hst' hl' b k hup
      · cases h.symm.trans h'
        cases hrn.symm.trans hst'
    collects := fun _ b k h => absurd h (not_removes hr) }

/-- `create_run` by a thread that has uploaded nothing, when its answer cannot get lost. -/
theorem turn_createRun {expId : Str} {tags : List (Str × Str)} {name : Str}
    {a : Ans (.createRun expId tags name)} (hF : ∀ e, ¬ F (.createRun expId tags name) (.lost e))
    (htags : tags.lookup artifactsUriTag = none)
    (h : Journaled (Serves F) i s (.createRun expId tags name) l a s')
    (hnone : ∀ b k, ¬ Uploads s.2 i b k) :
    Turn P i s ⟨.createRun expId tags name, l, a, s'.1⟩ s' ∧ ∀ id, a = .ok id → isRunId id = true ∧
      ∃ run, s'.1.mlflow.runs id = some run ∧ run.status = some .running := by
  obtain ⟨hs, hJ⟩ := h
  rcases serves_createRun hs with ⟨hw, e, rfl⟩ | ⟨id, start, hf, hid, hw, ha⟩
  · exact ⟨turn_still hJ (by rw [hw]) (by rw [hw]) rfl rfl (by simp), by simp⟩
  -- a run whose answer is lost would be nobody's
  obtain rfl : a = .ok id := ha.resolve_right fun ⟨e, he, _⟩ => hF e (he ▸ hs.1)
  have hruns : ∀ id', s'.1.mlflow.runs id' = if id' = id then some (newRun expId tags name start)
      else s.1.mlflow.runs id' := fun id' => by
    rw [hw]
    exact Function.update_apply ..
  have huri : UriOk id (newRun expId tags name start) := by
    have hne : (artifactsUriTag == "mlflow.runName".toList) = false := by decide
    exact .inl (by simp only [newRun, List.lookup_cons, hne, htags])
  refine ⟨?_, fun id' h => ?_⟩
  · exact {
      journal := hJ
      runs := fun id' run h => by
        rw [hruns, if_neg fun hi => by
          rw [hi, hf] at h
          cases h]
        exact ⟨run, h, .inl rfl⟩
      fresh := fun id' run' h h' => by
        rw [hruns] at h'
        split_ifs at h' with hi
        · cases h'
          exact ⟨by simp [newRun], rfl, hi ▸ huri⟩
        · cases h.symm.trans h'
      creates := fun id' h => by
        obtain rfl : id = id' := Option.some.inj h
        exact ⟨hid, hf, by rw [hruns, if_pos rfl]; simp, hnone⟩
      keys := fun b k hk => .inl (by rwa [hw] at hk)
      kept := fun b k hk hk' => absurd (by rwa [hw]) hk'
      uploads := fun b k h => by cases h
      finish := fun id' run run' _ h hst h' hst' => by
        rw [hruns] at h'
        split_ifs at h' with hi
        · rw [hi, hf] at h
          cases h
        · cases h.symm.trans h'
          cases hst.symm.trans hst'
      collects := fun _ b k h => absurd h (not_removes (by simp)) }
  · obtain rfl := Except.ok.inj h
    exact ⟨hid, _, by rw [hruns, if_pos rfl], rfl⟩

end Accel.Model
