import AccelProf.Janitor.Verdict

/-! `find_orphans` run alone against S3: it changes nothing and computes the survey of the bucket
it finds. -/

namespace Accel.Model
open Data Program Prog

variable {F : Call → Fate → Prop} {w w' : World} {tr : List (Step Call Ans Fate World)}
  {j : Janitor} {ask : Str → Except PyExc (Str × Run)} {α β γ : Type}

/-- In world `w` MLflow answers every run query by `ask`. -/
def Oracle (F : Call → Fate → Prop) (w : World) (ask : Str → Except PyExc (Str × Run)) : Prop :=
  ∀ id l (a : Ans (.getRun id)) w', Serves F w (.getRun id) l a w' → w' = w ∧ a = ask id

/-- Run from `w`, the program changes nothing and ends with `x`, unless a listing failed. -/
def Reads (F : Call → Fate → Prop) (w : World) (p : Action α) (x : Except PyExc α) : Prop :=
  ∀ tr r w', Exec (Serves F) p w tr r w' →
    w' = w ∧ (r = x ∨ (¬ ListsOk F ∧ ∃ e, r = .error (.service e)))

theorem reads_ret (a : α) : Reads F w (ret a) (.ok a) := by
  rintro tr r w' ⟨-, rfl, rfl⟩
  exact ⟨rfl, .inl rfl⟩

theorem reads_raise (e : PyExc) : Reads F w (raise e : Action α) (.error e) := by
  rintro tr r w' ⟨-, rfl, rfl⟩
  exact ⟨rfl, .inl rfl⟩

theorem Reads.bind {p : Action α} {x : Except PyExc α} {f : α → Action β}
    {g : α → Except PyExc β} (hp : Reads F w p x) (hf : ∀ a, x = .ok a → Reads F w (f a) (g a)) :
    Reads F w (p.bind f) (x >>= g) := by
  intro tr r w' h
  rcases exec_bind.1 h with ⟨e, he, rfl⟩ | ⟨a, tr₁, tr₂, w₁, h₁, h₂, -⟩
  · obtain ⟨rfl, rfl | ⟨hl, e', hr⟩⟩ := hp _ _ _ he
    · exact ⟨rfl, .inl rfl⟩
    · cases hr
      exact ⟨rfl, .inr ⟨hl, e', rfl⟩⟩
  · obtain ⟨rfl, rfl | ⟨-, e', hr⟩⟩ := hp _ _ _ h₁
    · exact hf a rfl _ _ _ h₂
    · cases hr

theorem Reads.bind_ok {p : Action α} {a : α} {f : α → Action β} {y : Except PyExc β}
    (hp : Reads F w p (.ok a)) (hf : Reads F w (f a) y) : Reads F w (p.bind f) y :=
  hp.bind (g := fun _ => y) fun b hb => by rwa [← Except.ok.inj hb]

theorem Reads.foldlM {f : β → α → Action β} {g : β → α → Except PyExc β} {xs : List α}
    (hf : ∀ b, ∀ x ∈ xs, Reads F w (f b x) (g b x)) (b : β) :
    Reads F w (xs.foldlM f b) (xs.foldlM g b) := by
  induction xs generalizing b with
  | nil => exact reads_ret b
  | cons x xs ih =>
    rw [List.foldlM_cons, List.foldlM_cons]
    exact (hf b x (by simp)).bind fun b' _ => ih (fun b y hy => hf b y (by simp [hy])) b'

/-- A listing that succeeds is the one the code goes on with. -/
theorem reads_listing {c : Call} {f : Resp c → Action β} {x : β}
    (hc : ∀ l (a : Ans c) w', Serves F w c l a w' → w' = w ∧
      ((∃ b, a = .ok b ∧ f b = ret x) ∨ ∃ e, a = .error (.service e) ∧ ¬ ListsOk F)) :
    Reads F w ((request c).bind f) (.ok x) := by
  intro tr r w' h
  rcases exec_bind.1 h with ⟨e, he, rfl⟩ | ⟨b, tr₁, tr₂, w₁, h₁, h₂, -⟩
  · obtain ⟨l, hs, -⟩ := exec_request.1 he
    obtain ⟨rfl, ⟨b, ha, -⟩ | ⟨e', ha, hl⟩⟩ := hc _ _ _ hs
    · cases ha
    · exact ⟨rfl, .inr ⟨hl, e', by rw [Except.error.inj ha]⟩⟩
  · obtain ⟨l, hs, -⟩ := exec_request.1 h₁
    obtain ⟨rfl, ⟨b', ha, hf⟩ | ⟨e', ha, -⟩⟩ := hc _ _ _ hs
    · obtain rfl := Except.ok.inj ha
      rw [hf] at h₂
      obtain ⟨-, rfl, rfl⟩ := h₂
      exact ⟨rfl, .inl rfl⟩
    · cases ha

theorem reads_commonPrefixes (pre : Key) : Reads F w (j.commonPrefixes pre)
    (.ok (Data.commonPrefixes '/' (w.s3 j.bucket.name).keys pre)) := by
  refine reads_listing fun l a w' hs => ?_
  obtain ⟨hw, ⟨pages, ha, hl⟩ | ⟨e, ha, hl⟩⟩ := serves_listCommonPrefixes hs
  · exact ⟨hw, .inl ⟨pages, ha, by rw [Pages.collect_eq, hl]; rfl⟩⟩
  · exact ⟨hw, .inr ⟨e, ha, fun hok => hl (hok.1 _ _ _ hs.1)⟩⟩

theorem reads_scanPrefix (pre : Key) : Reads F w (j.scanPrefix pre)
    (.ok ((w.s3 j.bucket.name).scanOf pre)) := by
  refine reads_listing fun l a w' hs => ?_
  obtain ⟨hw, ⟨pages, ha, hl⟩ | ⟨e, ha, hl⟩⟩ := serves_listObjects hs
  · exact ⟨hw, .inl ⟨pages, ha, by rw [Pages.fold_eq, hl]; rfl⟩⟩
  · exact ⟨hw, .inr ⟨e, ha, fun hok => hl (hok.2 _ _ _ hs.1)⟩⟩

theorem reads_listRunPrefixes : Reads F w j.listRunPrefixes
    (.ok (w.s3 j.bucket.name).runPrefixes) := by
  have hfold : ∀ (as acc : List Key), (as.foldlM (fun acc a =>
      .ok (acc ++ Data.commonPrefixes '/' (w.s3 j.bucket.name).keys a)) acc : Except PyExc _) =
      .ok (acc ++ as.flatMap (Data.commonPrefixes '/' (w.s3 j.bucket.name).keys)) := by
    intro as
    induction as with
    | nil => simp [pure, Except.pure]
    | cons a as ih =>
      intro acc
      rw [List.foldlM_cons]
      exact (ih _).trans (by simp [List.append_assoc])
  have h := hfold (Data.commonPrefixes '/' (w.s3 j.bucket.name).keys []) []
  rw [List.nil_append] at h
  rw [Bucket.runPrefixes, twoLevel, ← h]
  refine (reads_commonPrefixes []).bind_ok (Reads.foldlM (fun acc a _ => ?_) [])
  exact (reads_commonPrefixes a).bind_ok (reads_ret _)

theorem exec_resolveRun (ho : Oracle F w ask) {id : Str} {r : Except PyExc RunRef}
    (h : Exec (Serves F) (resolveRun id) w tr r w') : w' = w ∧ r = (ask id).map toRef := by
  simp only [resolveRun, bind_eq, pure_eq] at h
  rcases exec_bind.1 h with ⟨e, he, rfl⟩ | ⟨run, tr₁, tr₂, w₁, h₁, ⟨-, rfl, rfl⟩, -⟩
  · obtain ⟨l, hs, -⟩ := exec_request.1 he
    obtain ⟨rfl, ha⟩ := ho _ _ _ _ hs
    exact ⟨rfl, by rw [← ha]; rfl⟩
  · obtain ⟨l, hs, -⟩ := exec_request.1 h₁
    obtain ⟨rfl, ha⟩ := ho _ _ _ _ hs
    exact ⟨rfl, by rw [← ha]; rfl⟩

/-- A query whose exceptions are handled on the spot. -/
theorem reads_query (ho : Oracle F w ask) {id : Str} {f : Except PyExc RunRef → Action β}
    {x : Except PyExc β} (hf : Reads F w (f ((ask id).map toRef)) x) :
    Reads F w ((resolveRun id).attempt.bind f) x := by
  intro tr r w' h
  obtain ⟨out, tr₁, tr₂, w₁, h₁, h₂, -⟩ := exec_attempt_bind.1 h
  obtain ⟨rfl, rfl⟩ := exec_resolveRun ho h₁
  exact hf _ _ _ h₂

theorem reads_classify (ho : Oracle F w ask) (id : Str) :
    Reads F w (classify id) (tellOf ask id) := by
  refine reads_query ho ?_
  rw [tellOf]
  cases ask id with
  | ok run => exact reads_ret _
  | error e =>
    simp only [Except.map]
    split_ifs with hn
    · exact reads_ret _
    · exact reads_raise _

theorem reads_assertTrackingReachable (ho : Oracle F w ask) :
    Reads F w assertTrackingReachable (checkCanary ask) := by
  refine reads_query ho ?_
  rw [checkCanary]
  cases ask canaryRunId with
  | ok run => exact reads_ret _
  | error e =>
    simp only [Except.map]
    split_ifs with hn
    · exact reads_ret _
    · exact reads_raise _

/-- One round of the loop records the decision for its prefix. -/
theorem reads_examine (ho : Oracle F w ask) {pre k : Key} (hk : k ∈ w.s3 j.bucket.name)
    (hp : pre <+: k) (report : SweepReport) : Reads F w (j.examine report pre)
      ((j.judge (w.s3 j.bucket.name) (tellOf ask) pre).map
        (report.record (s3Uri j.bucket.name pre))) := by
  refine (reads_scanPrefix pre).bind_ok ?_
  simp only [Bucket.scanOf_empty hk hp, j.isRecent_scanOf, j.isStale_scanOf,
    Bucket.scanOf_hasMarker, Bool.false_eq_true, if_false, Janitor.judge]
  generalize j.abandoned _ pre = stale, Bucket.marked _ pre = held
  by_cases hrec : j.recent (w.s3 j.bucket.name) pre = true
  · simp only [if_pos hrec]
    exact reads_ret _
  by_cases hid : (!matchesRunId (runIdOf pre)) = true
  · simp only [if_neg hrec, if_pos hid]
    exact reads_ret _
  simp only [if_neg hrec, if_neg hid]
  have hmap : ∀ (x : Except PyExc Disposition) (v : Disposition → Verdict),
      (x.map v).map (report.record (s3Uri j.bucket.name pre)) =
        x >>= fun d => .ok (report.record (s3Uri j.bucket.name pre) (v d)) :=
    fun x v => by cases x <;> rfl
  rw [hmap]
  refine (reads_classify ho _).bind fun d _ => ?_
  cases d with
  | running => cases stale <;> exact reads_ret _
  | keep => exact reads_ret _
  | orphan => cases held <;> exact reads_ret _

theorem reads_findOrphans (ho : Oracle F w ask) :
    Reads F w j.findOrphans (j.survey (w.s3 j.bucket.name) ask) := by
  have hsurvey : j.survey (w.s3 j.bucket.name) ask = checkCanary ask >>= fun _ =>
      (w.s3 j.bucket.name).runPrefixes.foldlM (fun (report : SweepReport) pre =>
        (j.judge (w.s3 j.bucket.name) (tellOf ask) pre).map (SweepReport.record
          { report with scanned := report.scanned + 1 } (s3Uri j.bucket.name pre))) {} := by
    rw [Janitor.survey]
    cases checkCanary ask <;> rfl
  rw [hsurvey]
  refine (reads_assertTrackingReachable ho).bind fun _ _ => reads_listRunPrefixes.bind_ok ?_
  refine Reads.foldlM (fun report pre hpre => ?_) _
  obtain ⟨k, hk, hp⟩ := (Bucket.mem_runPrefixes.1 hpre).2
  exact reads_examine ho hk hp _

end Accel.Model
