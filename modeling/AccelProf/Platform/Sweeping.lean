import AccelProf.Janitor.Verdict
import AccelProf.Program.Journal
import AccelProf.Store.Effects

/-! Prefix deletions and sweeps among other threads: what holds of an orphan when its objects are
deleted was seen by the listing, the scan and the query of its prefix, and has been kept since. -/

namespace Accel.Model
open Data Program Prog

/-- The platform with the journal of all calls made to it. -/
abbrev State (ι : Type) := World × Journal ι Call Ans Fate World

variable {ι : Type} {F : Call → Fate → Prop} {i : ι} {K : Contract Call Ans (State ι)}
  {s s' : State ι} {l : Fate} {α : Type}

section Answers
variable {b : Str} {pre : Key}

theorem journaled_listObjects {a : Ans (.listObjects b pre)}
    (h : Journaled (Serves F) i s (.listObjects b pre) l a s') : s'.1 = s.1 ∧
      ∀ pages, a = .ok pages → pages.toList = ((s.1.s3 b).under pre).map listed := by
  obtain ⟨hw, ⟨pages, rfl, hp⟩ | ⟨e, rfl, -⟩⟩ := serves_listObjects h.1
  · exact ⟨hw, fun pages' h => by rw [← Except.ok.inj h, hp]⟩
  · exact ⟨hw, fun pages' h => by cases h⟩

theorem journaled_listCommonPrefixes {a : Ans (.listCommonPrefixes b pre)}
    (h : Journaled (Serves F) i s (.listCommonPrefixes b pre) l a s') : s'.1 = s.1 ∧
      ∀ pages, a = .ok pages → pages.toList = commonPrefixes '/' (s.1.s3 b).keys pre := by
  obtain ⟨hw, ⟨pages, rfl, hp⟩ | ⟨e, rfl, -⟩⟩ := serves_listCommonPrefixes h.1
  · exact ⟨hw, fun pages' h => by rw [← Except.ok.inj h, hp]⟩
  · exact ⟨hw, fun pages' h => by cases h⟩

end Answers

section Rules
variable {R : Service Call Ans Fate (State ι)}

theorem stable_true : Stable K fun _ => True := fun _ _ _ _ _ => trivial

theorem stable_forall {β : Type} {P : β → State ι → Prop} (h : ∀ b, Stable K (P b)) :
    Stable K fun s => ∀ b, P b s := fun _ _ hs hi hr b => h b _ _ (hs b) hi hr

theorem stable_imp {c : Prop} {P : State ι → Prop} (h : Stable K P) : Stable K fun s => c → P s :=
  fun _ _ hs hi hr hc => h _ _ (hs hc) hi hr

theorem stable_and {P Q : State ι → Prop} (hP : Stable K P) (hQ : Stable K Q) :
    Stable K fun s => P s ∧ Q s := fun _ _ hs hi hr => ⟨hP _ _ hs.1 hi hr, hQ _ _ hs.2 hi hr⟩

theorem safe_ret {a : α} {Q : Except PyExc α → State ι → Prop} {P : State ι → Prop}
    (hP : Stable K P)
    (hQ : ∀ s, P s → Q (.ok a) s) (h : P s) : Safe R K Q (ret a) s :=
  fun _ hi hr => hQ _ (hP _ _ h hi hr)

theorem safe_raise {e : PyExc} {Q : Except PyExc α → State ι → Prop} {P : State ι → Prop}
    (hP : Stable K P) (hQ : ∀ s, P s → Q (.error e) s) (h : P s) :
    Safe R K Q (raise e : Action α) s := fun _ hi hr => hQ _ (hP _ _ h hi hr)

theorem safe_discard {p : Action α} (h : Safe R K (fun _ _ => True) p s) :
    Safe R K (fun _ _ => True) (do let _ ← p; return () : Action Unit) s := by
  refine Safe.bind (h.mono ?_)
  rintro (e | a) s₁ - -
  · trivial
  · exact safe_ret stable_true (fun _ h => h) trivial

end Rules

section DeletePrefix
variable {P : State ι → Prop} {uri : Str} {p : ParsedS3Uri}

theorem safe_listPrefix (hp : parseS3Uri uri = .ok p) (hP : Stable K P)
    (hlist : ∀ s, K.inv s → P s →
      ∀ l a s', Journaled (Serves F) i s (.listObjects p.bucket p.key) l a s' →
      K.guar s (.listObjects p.bucket p.key) a s' ∧ P s') (hs : P s) :
    Safe (Journaled (Serves F) i) K
      (fun r s => P s ∧ ∀ keys, r = .ok keys → ∀ k ∈ keys, p.key <+: k) (listPrefix uri) s := by
  simp only [listPrefix, hp, ofExcept_ok, bind_eq, ret_bind, pure_eq]
  refine Safe.bind (Safe.mono (safe_perform (Q := fun a s => P s ∧
    ∀ pages, a = .ok pages → ∀ o ∈ pages.toList, p.key <+: o.key) ?_ fun s₁ hi hr l a s₂ h => ?_)
      ?_)
  · exact fun a => stable_and hP fun _ _ h _ _ => h
  · obtain ⟨hg, hP₂⟩ := hlist s₁ hi (hP _ _ hs hi hr) l a s₂ h
    refine ⟨hg, hP₂, fun pages ha o ho => ?_⟩
    rw [(journaled_listObjects h).2 pages ha] at ho
    obtain ⟨e, he, rfl⟩ := List.mem_map.1 ho
    exact (Bucket.mem_under.1 he).2
  · rintro (e | pages) s₁ - ⟨hP₁, hpages⟩
    · exact ⟨hP₁, by simp⟩
    · refine safe_ret hP (fun s hP₂ => ⟨hP₂, fun keys hk k hkk => ?_⟩) hP₁
      obtain rfl := Except.ok.inj hk
      rw [Pages.collect_eq] at hkk
      obtain ⟨o, ho, rfl⟩ := List.mem_map.1 hkk
      exact hpages pages rfl o ho

/-- A prefix deletion deletes only keys below the parsed prefix. -/
theorem safe_deletePrefix (hP : Stable K P)
    (hlist : ∀ p, parseS3Uri uri = .ok p → ∀ s, K.inv s → P s → ∀ l a s',
      Journaled (Serves F) i s (.listObjects p.bucket p.key) l a s' →
        K.guar s (.listObjects p.bucket p.key) a s' ∧ P s')
    (hdel : ∀ p keys, parseS3Uri uri = .ok p → (∀ k ∈ keys, p.key <+: k) → ∀ s, K.inv s → P s →
      ∀ l a s', Journaled (Serves F) i s (.deleteObjects p.bucket keys) l a s' →
        K.guar s (.deleteObjects p.bucket keys) a s' ∧ P s') (hs : P s) :
    Safe (Journaled (Serves F) i) K (fun _ s => P s) (deletePrefix uri) s := by
  have hraise : ∀ {α : Type} (e : PyExc) {s : State ι}, P s →
      Safe (Journaled (Serves F) i) K (fun _ s => P s) (raise e : Action α) s :=
    fun e s h => safe_raise hP (fun _ h => h) h
  cases hp : parseS3Uri uri with
  | error e =>
    simp only [deletePrefix, hp, ofExcept_error, bind_eq, raise_bind]
    exact hraise e hs
  | ok p =>
    simp only [deletePrefix, hp, ofExcept_ok, bind_eq, ret_bind]
    split_ifs
    · exact hraise _ hs
    refine Safe.bind ((safe_listPrefix hp hP (hlist p hp) hs).mono ?_)
    rintro (e | keys) s₁ - ⟨hP₁, hkeys⟩
    · exact hP₁
    refine safe_foldlM (I := fun _ s => P s) (fun _ => hP) (fun _ _ h => h)
      (fun n batch hbatch s₂ hP₂ => ?_) hP₁
    simp only [deleteOne, bind_eq]
    refine Safe.bind (Safe.mono (safe_perform (Q := fun _ s => P s) (fun _ => hP)
      fun s₃ hi hr l a s₄ h =>
        hdel p batch hp (fun k hk => hkeys keys rfl k (mem_of_mem_slices hbatch hk))
        s₃ hi (hP _ _ hP₂ hi hr) l a s₄ h) ?_)
    rintro (e | resp) s₃ - hP₃
    · exact hP₃
    · simp only
      split
      · exact safe_raise hP (fun _ h => h) hP₃
      · exact safe_ret hP (fun _ h => h) hP₃

end DeletePrefix

def LookCall : Call → Prop
  | .listCommonPrefixes .. => True
  | .listObjects .. => True
  | .getRun _ => True
  | _ => False

theorem serves_lookCall {w w' : World} {c : Call} {a : Ans c}
    (hc : LookCall c) (h : Serves F w c l a w') : w' = w := by
  rcases h.effect with h | ⟨a', h⟩ | ⟨errs, h⟩
  · exact h
  · cases c <;> first | exact h.1 | exact hc.elim
  · cases c <;> first | exact h.elim | exact hc.elim

/-- The answers that `classify` takes for an orphan. -/
def TellsOrphan {id : Str} : Ans (.getRun id) → Prop
  | .ok run => dispositionOf (toRef run) = .orphan
  | .error e => e.isNotFound = true

/-- The rule of sweeps: `listed`, `unheld` and `dead` are what the listing, the scan and the query
of a prefix establish about it; together they must allow the deletion of its objects. -/
structure SweepRule (F : Call → Fate → Prop) (i : ι) (K : Contract Call Ans (State ι)) (j : Janitor)
    (listed unheld dead : Key → State ι → Prop) : Prop where
  own : ∀ s c a s', K.guar s c a s' → K.inv s' ∧ K.rely s s'
  stable : ∀ p, Stable K (listed p) ∧ Stable K (unheld p) ∧ Stable K (dead p)
  look : ∀ {s c l a s'}, LookCall c → K.inv s → Journaled (Serves F) i s c l a s' → K.guar s c a s'
  list : ∀ {s pre l a s' p}, K.inv s →
    Journaled (Serves F) i s (.listCommonPrefixes j.bucket.name pre) l a s' → IsTwoField '/' p →
    (∃ k ∈ s.1.s3 j.bucket.name, p <+: k) → listed p s'
  scan : ∀ {s p l pages s'}, K.inv s → IsTwoField '/' p → listed p s →
    Journaled (Serves F) i s (.listObjects j.bucket.name p) l (.ok pages) s' →
    (s.1.s3 j.bucket.name).marked p = false → unheld p s'
  ask : ∀ {s p l a s'}, K.inv s → IsTwoField '/' p → listed p s →
    Journaled (Serves F) i s (.getRun (runIdOf p)) l a s' → TellsOrphan a → dead p s'
  delete : ∀ {s p keys l a s'}, K.inv s → IsTwoField '/' p → isRefused p = false →
    listed p s → unheld p s → dead p s → (∀ k ∈ keys, uriKey p <+: k) →
    Journaled (Serves F) i s (.deleteObjects j.bucket.name keys) l a s' →
    K.guar s (.deleteObjects j.bucket.name keys) a s'

/-- The orphans a report names have passed the listing, the scan and the query. -/
def Found (j : Janitor) (listed unheld dead : Key → State ι → Prop) (report : SweepReport)
    (s : State ι) : Prop :=
  ∀ uri ∈ report.orphans, ∃ p, uri = s3Uri j.bucket.name p ∧ IsTwoField '/' p ∧
    listed p s ∧ unheld p s ∧ dead p s

section Sweep
variable {j : Janitor} {listed unheld dead : Key → State ι → Prop}
  (H : SweepRule F i K j listed unheld dead)
include H

theorem SweepRule.stable_found (report : SweepReport) :
    Stable K (Found j listed unheld dead report) := by
  intro s s₁ h hi hr uri huri
  obtain ⟨p, hp, h2, h₁, h₂, h₃⟩ := h uri huri
  obtain ⟨hs₁, hs₂, hs₃⟩ := H.stable p
  exact ⟨p, hp, h2, hs₁ _ _ h₁ hi hr, hs₂ _ _ h₂ hi hr, hs₃ _ _ h₃ hi hr⟩

/-- One look around, and what its answer says. -/
theorem SweepRule.safe_look {c : Call} (hc : LookCall c) {Q : Ans c → State ι → Prop}
    (hQ : ∀ a, Stable K (Q a))
    (h : ∀ s₁, K.inv s₁ → K.rely s s₁ → ∀ l a s₂, Journaled (Serves F) i s₁ c l a s₂ → Q a s₂) :
    Safe (Journaled (Serves F) i) K Q (request c) s :=
  safe_perform hQ fun s₁ hi hr l a s₂ hs => ⟨H.look hc hi hs, h s₁ hi hr l a s₂ hs⟩

theorem SweepRule.safe_commonPrefixes (pre : Key) :
    Safe (Journaled (Serves F) i) K (fun r s => ∀ ps, r = .ok ps → ∀ p ∈ ps,
      (∃ a, '/' ∉ a ∧ p = pre ++ (a ++ ['/'])) ∧ (IsTwoField '/' p → listed p s))
      (j.commonPrefixes pre) s := by
  have hst : ∀ ps : List Key, Stable K fun s => ∀ p ∈ ps,
      (∃ a, '/' ∉ a ∧ p = pre ++ (a ++ ['/'])) ∧ (IsTwoField '/' p → listed p s) :=
    fun ps s s₁ h hi hr p hp => (h p hp).imp_right fun h h2 => (H.stable p).1 _ _ (h h2) hi hr
  refine Safe.bind
    (Safe.mono (H.safe_look (c := .listCommonPrefixes j.bucket.name pre) trivial
    (Q := fun a s => ∀ pages, a = .ok pages →
    ∀ p ∈ Pages.toList pages, (∃ a, '/' ∉ a ∧ p = pre ++ (a ++ ['/'])) ∧
      (IsTwoField '/' p → listed p s)) (fun a => stable_forall fun pages => stable_imp (hst _)) ?_)
        ?_)
  · intro s₁ hi _ l a s₂ h pages ha p hp
    rw [(journaled_listCommonPrefixes h).2 pages ha] at hp
    obtain ⟨a, hsa, hpa, hk⟩ := mem_commonPrefixes.1 hp
    exact ⟨⟨a, hsa, hpa⟩, fun h2 => H.list hi h h2 hk⟩
  · rintro (e | pages) s₁ - h
    · simp
    · refine safe_ret (hst _) (fun s h ps hps => ?_) (h pages rfl)
      obtain rfl := Except.ok.inj hps
      rwa [Pages.collect_eq]

theorem SweepRule.safe_listRunPrefixes :
    Safe (Journaled (Serves F) i) K
      (fun r s => ∀ ps, r = .ok ps → ∀ p ∈ ps, IsTwoField '/' p ∧ listed p s) j.listRunPrefixes
      s := by
  have hst : ∀ ps : List Key, Stable K fun s => ∀ p ∈ ps, IsTwoField '/' p ∧ listed p s :=
    fun ps s s₁ h hi hr p hp => (h p hp).imp_right fun h => (H.stable p).1 _ _ h hi hr
  refine Safe.bind ((H.safe_commonPrefixes []).mono ?_)
  rintro (e | as) s₁ - has
  · simp
  refine safe_foldlM (I := fun ps s => ∀ p ∈ ps, IsTwoField '/' p ∧ listed p s) hst
    (fun ps s h ps' hps => by rwa [← Except.ok.inj hps]) (fun ps a ha s₂ hps => ?_) (by simp)
  obtain ⟨a, hsa, rfl⟩ := (has as rfl _ ha).1
  refine Safe.bind (((H.safe_commonPrefixes _).frame H.own (hst ps) hps).mono ?_)
  rintro (e | found) s₃ - ⟨hfound, hps₃⟩
  · simp
  refine safe_ret (hst (ps ++ found)) (fun _ h => h) fun p hp => ?_
  rcases List.mem_append.1 hp with hp | hp
  · exact hps₃ p hp
  · obtain ⟨⟨b, hsb, rfl⟩, hl⟩ := hfound found rfl p hp
    have h2 : IsTwoField '/' ([] ++ (a ++ ['/']) ++ (b ++ ['/'])) := ⟨a, b, hsa, hsb, by simp⟩
    exact ⟨h2, hl h2⟩

theorem SweepRule.safe_scanPrefix {p : Key} (h2 : IsTwoField '/' p) (hp : listed p s) :
    Safe (Journaled (Serves F) i) K
      (fun r s => ∀ scan, r = .ok scan → scan.hasMarker = false → unheld p s)
      (j.scanPrefix p) s := by
  refine Safe.bind
    (Safe.mono (H.safe_look (c := .listObjects j.bucket.name p) trivial
    (Q := fun a s => ∀ pages, a = .ok pages →
    (Pages.fold (scanStep p) pages ⟨none, false, true⟩).hasMarker = false → unheld p s)
    (fun a => stable_forall fun pages => stable_imp (stable_imp (H.stable p).2.1)) ?_) ?_)
  · rintro s₁ hi hr l a s₂ h pages rfl hm
    rw [Pages.fold_eq, (journaled_listObjects h).2 pages rfl] at hm
    rw [← Bucket.scanOf, Bucket.scanOf_hasMarker] at hm
    exact H.scan hi h2 ((H.stable p).1 _ _ hp hi hr) h hm
  · rintro (e | pages) s₁ - h
    · simp
    · exact safe_ret (stable_imp (H.stable p).2.1)
        (fun s h scan hscan => by rwa [← Except.ok.inj hscan]) (h pages rfl)

theorem SweepRule.safe_classify {p : Key} (h2 : IsTwoField '/' p) (hp : listed p s) :
    Safe (Journaled (Serves F) i) K (fun r s => r = .ok .orphan → dead p s)
      (classify (runIdOf p)) s := by
  have hst : ∀ c : Prop, Stable K fun s => c → dead p s := fun c => stable_imp (H.stable p).2.2
  have hres : Safe (Journaled (Serves F) i) K (fun r s => (match r with
      | .ok ref => dispositionOf ref = .orphan
      | .error e => e.isNotFound = true) → dead p s) (resolveRun (runIdOf p)) s := by
    refine Safe.bind
      (Safe.mono (H.safe_look (c := .getRun (runIdOf p)) trivial
      (Q := fun a s => TellsOrphan a → dead p s)
      (fun a => hst _) ?_) ?_)
    · exact fun s₁ hi hr l a s₂ h ho => H.ask hi h2 ((H.stable p).1 _ _ hp hi hr) h ho
    · rintro (e | run) s₁ - h
      · exact h
      · exact safe_ret (hst _) (fun _ h => h) h
  refine Safe.bind (Safe.attempt (hres.mono ?_))
  rintro (e | ref) s₁ - h
  · simp only
    split_ifs with hn
    · exact safe_ret (hst True) (fun _ h _ => h trivial) fun _ => h hn
    · exact safe_raise stable_true (fun _ _ h => by cases h) trivial
  · exact safe_ret (hst (dispositionOf ref = .orphan)) (fun _ h hr => h (Except.ok.inj hr)) h

theorem SweepRule.safe_assertTrackingReachable :
    Safe (Journaled (Serves F) i) K (fun _ _ => True) assertTrackingReachable s := by
  have hres : Safe (Journaled (Serves F) i) K (fun _ _ => True) (resolveRun canaryRunId) s := by
    refine Safe.bind
      (Safe.mono (H.safe_look (c := .getRun canaryRunId) trivial (Q := fun _ _ => True)
      (fun _ => stable_true)
      fun _ _ _ _ _ _ _ => trivial) ?_)
    rintro (e | run) s₁ - -
    · trivial
    · exact safe_ret stable_true (fun _ h => h) trivial
  refine Safe.bind (Safe.attempt (hres.mono ?_))
  rintro (e | ref) s₁ - -
  · simp only
    split_ifs
    · exact safe_ret stable_true (fun _ h => h) trivial
    · exact safe_raise stable_true (fun _ h => h) trivial
  · exact safe_ret stable_true (fun _ h => h) trivial

/-- A round of the loop adds an orphan only after its scan and its query. -/
theorem SweepRule.safe_examine {report : SweepReport} {p : Key} (h2 : IsTwoField '/' p)
    (hr : Found j listed unheld dead report s) (hp : listed p s) :
    Safe (Journaled (Serves F) i) K (fun r s => ∀ rep, r = .ok rep →
      Found j listed unheld dead rep s) (j.examine report p) s := by
  have hkeep : ∀ {rep : SweepReport} {s₁ : State ι}, rep.orphans = report.orphans →
      Found j listed unheld dead report s₁ →
      Safe (Journaled (Serves F) i) K (fun r s => ∀ rep, r = .ok rep →
        Found j listed unheld dead rep s) (ret rep) s₁ := fun {rep s₁} ho h =>
    safe_ret (H.stable_found report)
      (fun s h rep' hrep => by rw [← Except.ok.inj hrep, Found, ho]; exact h) h
  refine Safe.bind ((((H.safe_scanPrefix h2 hp).frame H.own (H.stable_found _) hr).frame H.own
    (H.stable p).1 hp).mono ?_)
  rintro (e | scan) s₁ - ⟨⟨hscan, hr₁⟩, hp₁⟩
  · simp
  -- what the scan saw of the marker, as the state goes on
  have hun : Stable K fun s => scan.hasMarker = false → unheld p s := stable_imp (H.stable p).2.1
  simp only [pure_eq, bind_eq]
  split
  · exact hkeep rfl hr₁
  split
  · exact hkeep rfl hr₁
  split
  · exact hkeep rfl hr₁
  refine Safe.bind (((((H.safe_classify h2 hp₁).frame H.own (H.stable_found _) hr₁).frame H.own
    (H.stable p).1 hp₁).frame H.own hun (hscan scan rfl)).mono ?_)
  rintro (e | d) s₂ - ⟨⟨⟨hd, hr₂⟩, hp₂⟩, hs₂⟩
  · simp
  cases d with
  | running =>
    simp only
    split_ifs
    · exact hkeep rfl hr₂
    · exact hkeep rfl hr₂
  | keep => exact hkeep rfl hr₂
  | orphan =>
    simp only
    split_ifs with hm
    · exact hkeep rfl hr₂
    refine safe_ret (H.stable_found _) (fun s h rep hrep => Except.ok.inj hrep ▸ h) ?_
    intro uri huri
    rcases List.mem_append.1 huri with huri | huri
    · exact hr₂ uri huri
    · exact ⟨p, List.mem_singleton.1 huri, h2, hp₂, hs₂ (by simpa using hm), hd rfl⟩

theorem SweepRule.safe_findOrphans :
    Safe (Journaled (Serves F) i) K (fun r s => ∀ rep, r = .ok rep →
      Found j listed unheld dead rep s) j.findOrphans s := by
  refine Safe.bind ((H.safe_assertTrackingReachable).mono ?_)
  rintro (e | u) s₁ - -
  · simp
  refine Safe.bind ((H.safe_listRunPrefixes).mono ?_)
  rintro (e | ps) s₂ - hps
  · simp
  have hst : Stable K fun s => ∀ p ∈ ps, IsTwoField '/' p ∧ listed p s :=
    fun s s₁ h hi hr p hp => (h p hp).imp_right fun h => (H.stable p).1 _ _ h hi hr
  refine safe_foldlM (I := fun rep s => Found j listed unheld dead rep s ∧
      ∀ p ∈ ps, IsTwoField '/' p ∧ listed p s) (fun rep => stable_and (H.stable_found rep) hst)
    (fun rep s h rep' hrep => Except.ok.inj hrep ▸ h.1) (fun rep p hp s₃ ⟨hf, hl⟩ => ?_)
    ⟨fun uri huri => by simp at huri, hps ps rfl⟩
  have hf' : Found j listed unheld dead { rep with scanned := rep.scanned + 1 } s₃ := hf
  refine ((H.safe_examine (hl p hp).1 hf' (hl p hp).2).frame H.own hst hl).mono ?_
  rintro (e | rep') s₄ - ⟨h, hl⟩
  · simp
  · exact ⟨h rep' rfl, hl⟩

/-- A sweep among other threads keeps its guarantee. -/
theorem SweepRule.safe_sweep (apply : Bool) :
    Safe (Journaled (Serves F) i) K (fun _ _ => True) (j.sweep apply) s := by
  refine Safe.bind ((H.safe_findOrphans).mono ?_)
  rintro (e | report) s₁ - hfound
  · trivial
  simp only [pure_eq]
  split_ifs
  · exact safe_ret stable_true (fun _ h => h) trivial
  · exact safe_raise stable_true (fun _ h => h) trivial
  refine safe_foldlM (I := fun _ s => Found j listed unheld dead report s)
    (fun _ => H.stable_found report) (fun _ _ _ => trivial) (fun rep uri huri s₂ hf => ?_)
    (hfound report rfl)
  obtain ⟨p, rfl, h2, hp⟩ := hf uri huri
  have hst : Stable K fun s => listed p s ∧ unheld p s ∧ dead p s :=
    stable_and (H.stable p).1 (stable_and (H.stable p).2.1 (H.stable p).2.2)
  have hparse := parseS3Uri_runPrefix j.bucket h2
  refine Safe.bind (Safe.mono ((safe_deletePrefix hst (fun q hq s₃ hi hs₃ l a s₄ h => ?_)
    (fun q keys hq hk s₃ hi hs₃ l a s₄ h => ?_) hp).frame H.own (H.stable_found report) hf) ?_)
  · have hg := H.look (c := .listObjects q.bucket q.key) trivial hi h
    obtain ⟨hi₄, hr₄⟩ := H.own _ _ _ _ hg
    exact ⟨hg, hst _ _ hs₃ hi₄ hr₄⟩
  · rw [hparse] at hq
    split_ifs at hq with hrf
    obtain rfl := Except.ok.inj hq
    have hg := H.delete hi h2 (by simpa using hrf) hs₃.1 hs₃.2.1 hs₃.2.2 hk h
    obtain ⟨hi₄, hr₄⟩ := H.own _ _ _ _ hg
    exact ⟨hg, hst _ _ hs₃ hi₄ hr₄⟩
  · rintro (e | n) s₃ - ⟨-, hf₃⟩
    · trivial
    · exact safe_ret (H.stable_found report) (fun _ h => h) hf₃

end Sweep

end Accel.Model
