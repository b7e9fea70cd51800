import AccelProf.Janitor.Breaker
import AccelProf.Platform.Sweeping

/-! Holds and sweeps interleaved call by call: what a sweep deletes below a prefix it had scanned
when the prefix carried no marker. -/

namespace Accel.Model
open Data Program Prog

variable {ι : Type} {b : Str} {pre : Key} {i : ι} {s s' : State ι} {run : RunRef}

/-- The URI of the prefix parses back to it, if at all. -/
def RoundTrips (p : Key) : Prop := uriKey p = p ∨ isRefused p = true

/-- No key stands both below `pre` and below the place that the URI of `p` names. -/
def Misses (pre p : Key) : Prop := ¬ uriKey p <+: pre ∧ ¬ pre <+: uriKey p

/-- A deletion through the URI of `p` is one of what stands below `p` or none below `pre`. -/
def Harmless (pre p : Key) : Prop := RoundTrips p ∨ Misses pre p

/-- The run's `artifacts_uri` names the prefix of a run in bucket `b`. -/
structure LivesAt (run : RunRef) (b : Str) (pre : Key) : Prop where
  shape : ∃ a id, '/' ∉ a ∧ '/' ∉ id ∧ id ≠ [] ∧ pre = runPrefix a id
  uri : ∃ uri, run.artifactsUri = some uri ∧ parseS3Uri uri = .ok ⟨b, pre⟩

/-- So do the runs that `log` stores. -/
theorem livesAt_artifactsUri {a id : Str} (bucket : BucketName) (ha : safeIdBody a = true)
    (hid : isRunId id = true) (h : run.artifactsUri = some (artifactsUri bucket.name a id)) :
    LivesAt run bucket.name (runPrefix a id) where
  shape := ⟨a, id, slash_not_mem_of_plain (plain_of_safeIdBody ha).2, not_mem_of_isRunId hid,
    isRunId_ne_nil hid, rfl⟩
  uri := ⟨_, h, parse_artifactsUri (plain_of_safeIdBody ha).2 (plain_of_isRunId hid) bucket
    (plain_of_safeIdBody ha).1⟩

theorem LivesAt.twoField (h : LivesAt run b pre) : IsTwoField '/' pre := by
  obtain ⟨a, id, ha, hid, -, rfl⟩ := h.shape
  exact runPrefix_isTwoField ha hid

theorem LivesAt.scanMarkerKey_eq (h : LivesAt run b pre) :
    scanMarkerKey pre = pre ++ retentionMarker := by
  obtain ⟨a, id, -, hid, hne, rfl⟩ := h.shape
  exact scanMarkerKey_runPrefix hid hne

theorem LivesAt.hold_eq (h : LivesAt run b pre) : hold run =
    (request (.putObject b (pre ++ retentionMarker) [])).bind fun _ =>
    ret (pre ++ retentionMarker) := by
  obtain ⟨uri, huri, hp⟩ := h.uri
  have hne : uri ≠ [] := by
    rintro rfl
    cases hp
  have hpre : pre ≠ [] := by
    obtain ⟨a, id, -, -, -, rfl⟩ := h.shape
    simp [runPrefix]
  have hm : markerKey uri = .ok (b, pre ++ retentionMarker) := by
    rw [← h.scanMarkerKey_eq]
    simp [markerKey, hp, hpre, scanMarkerKey]
  simp only [hold, huri, if_neg hne, writeRetentionMarker, hm, ofExcept_ok, bind_eq, ret_bind,
    pure_eq]

theorem roundTrips_of_markerKey {uri bucket : Str} {key p : Key}
    (h : markerKey uri = .ok (bucket, key)) (hp : p <+: key) : RoundTrips p := by
  rw [markerKey] at h
  cases hparse : parseS3Uri uri with
  | error e => simp [hparse] at h
  | ok parsed =>
    simp only [hparse] at h
    split_ifs at h with hne
    obtain ⟨-, rfl⟩ := Prod.mk.inj (Except.ok.inj h)
    obtain ⟨hclean, hhead⟩ := parseS3Uri_key hparse
    obtain ⟨x, xs, hx⟩ := List.exists_cons_of_ne_nil hne
    have hxs : x ≠ '/' := fun h => hhead (by rw [hx, h]; rfl)
    have hstrip : rstrip '/' parsed.key <+: parsed.key := List.rdropWhile_prefix _ _
    have hsne : rstrip '/' parsed.key ≠ [] := fun h => by
      have := List.rdropWhile_eq_nil_iff.1 h x (by simp [hx])
      exact hxs (by simpa using this)
    have hmark : clean ('/' :: retentionMarker) = '/' :: retentionMarker := rfl
    refine .inl (uriKey_eq_self (fun c hc => ?_) fun hh => hhead ?_)
    · rcases List.mem_append.1 (hp.subset hc) with hc | hc
      · exact hclean c (hstrip.subset hc)
      · exact clean_eq_self.1 hmark c hc
    · obtain ⟨t, ht⟩ := hp
      obtain ⟨u, hu⟩ := hstrip
      obtain ⟨y, ys, hy⟩ := List.exists_cons_of_ne_nil hsne
      obtain ⟨z, zs, hz⟩ := List.exists_cons_of_ne_nil (l := p) (by rintro rfl; cases hh)
      rw [hz, hy] at ht
      rw [hz] at hh
      rw [← hu, hy]
      simp only [List.cons_append, List.cons.injEq, List.head?_cons, Option.some.injEq] at ht hh ⊢
      exact ht.1.symm.trans hh

/-- Thread `i` listed the prefix when it carried no marker. -/
def SawUnheld (b : Str) (pre : Key) (J : Journal ι Call Ans Fate World) (i : ι) : Prop :=
  ∃ st, (i, st) ∈ J ∧ st.call = .listObjects b pre ∧ pre ++ retentionMarker ∉ st.after.s3 b

/-- The put of the marker, which a hold makes before it returns. -/
def Posts (b : Str) (pre : Key) (st : Step Call Ans Fate World) : Prop :=
  ∃ body, st.call = .putObject b (pre ++ retentionMarker) body ∧ st.label = .ok

/-- A hold has returned, and nobody has deleted the marker since. -/
def HeldSince (b : Str) (pre : Key) (J : Journal ι Call Ans Fate World) : Prop :=
  ∃ J₁ e J₂, J = J₁ ++ e :: J₂ ∧ Posts b pre e.2 ∧
    ∀ e' ∈ J₂, ¬ Removes b (pre ++ retentionMarker) e'.2

theorem heldSince_append {J : Journal ι Call Ans Fate World} {e : ι × Step Call Ans Fate World}
    (h : HeldSince b pre (J ++ [e])) :
    Posts b pre e.2 ∨ HeldSince b pre J ∧ ¬ Removes b (pre ++ retentionMarker) e.2 := by
  obtain ⟨J₁, e', J₂, hJ, hp, hr⟩ := h
  rcases append_singleton_eq_append_cons.1 hJ with ⟨-, rfl, -⟩ | ⟨J₃, rfl, rfl⟩
  · exact .inl hp
  · exact .inr ⟨⟨J₁, e', J₃, rfl, hp, fun x hx => hr x (by simp [hx])⟩, hr e (by simp)⟩

/-- What holds between any two calls: the URI of no prefix in the bucket leads below this one from
elsewhere, only a thread that saw the prefix without a marker has deleted anything below it, and a
hold leaves its marker where everyone sees it. -/
structure Guarded (b : Str) (pre : Key) (s : State ι) : Prop where
  clean : ∀ k ∈ s.1.s3 b, ∀ p, IsTwoField '/' p → p <+: k → Harmless pre p
  seen : ∀ J₁ i st J₂, s.2 = J₁ ++ (i, st) :: J₂ → ∀ k, pre <+: k → Removes b k st →
    SawUnheld b pre J₁ i
  stays : HeldSince b pre s.2 → pre ++ retentionMarker ∈ s.1.s3 b
  shown : ∀ J₁ e J₂, s.2 = J₁ ++ e :: J₂ → HeldSince b pre (J₁ ++ [e]) →
    pre ++ retentionMarker ∈ e.2.after.s3 b

theorem Guarded.step {st : Step Call Ans Fate World} (hs : Guarded b pre s)
    (hJ : s'.2 = s.2 ++ [(i, st)]) (hafter : st.after = s'.1)
    (hclean : ∀ k ∈ s'.1.s3 b, k ∈ s.1.s3 b ∨ ∀ p, IsTwoField '/' p → p <+: k → Harmless pre p)
    (hseen : ∀ k, pre <+: k → Removes b k st → SawUnheld b pre s.2 i)
    (hpost : Posts b pre st → pre ++ retentionMarker ∈ s'.1.s3 b)
    (hkeep : pre ++ retentionMarker ∈ s.1.s3 b → ¬ Removes b (pre ++ retentionMarker) st →
      pre ++ retentionMarker ∈ s'.1.s3 b) : Guarded b pre s' := by
  have hstays : HeldSince b pre (s.2 ++ [(i, st)]) → pre ++ retentionMarker ∈ s'.1.s3 b :=
    fun h => by
    rcases heldSince_append h with hp | ⟨hh, hr⟩
    · exact hpost hp
    · exact hkeep (hs.stays hh) hr
  refine ⟨fun k hk => ?_, fun J₁ i' st' J₂ hsplit k hk hr => ?_, ?_, fun J₁ e J₂ hsplit h => ?_⟩
  · exact (hclean k hk).elim (hs.clean k) fun h => h
  · rw [hJ] at hsplit
    rcases append_singleton_eq_append_cons.1 hsplit with ⟨rfl, he, -⟩ | ⟨J₃, -, hsplit⟩
    · cases he
      exact hseen k hk hr
    · exact hs.seen J₁ i' st' J₃ hsplit k hk hr
  · rw [hJ]
    exact hstays
  · rw [hJ] at hsplit
    rcases append_singleton_eq_append_cons.1 hsplit with ⟨rfl, rfl, -⟩ | ⟨J₃, -, hsplit⟩
    · rw [hafter]
      exact hstays h
    · exact hs.shown J₁ e J₃ hsplit h

/-- Between its calls a thread sees a guarded prefix and a journal that only grows. -/
def guarding (b : Str) (pre : Key) : Contract Call Ans (State ι) where
  inv := Guarded b pre
  rely := fun s s' => s.2 <+: s'.2
  guar := fun s _ _ s' => Guarded b pre s' ∧ s.2 <+: s'.2
  rely_refl := fun _ => List.prefix_rfl
  rely_trans := fun h h' => h.trans h'

theorem Guarded.guar {st : Step Call Ans Fate World} (h : Guarded b pre s')
    (hJ : s'.2 = s.2 ++ [(i, st)]) {c : Call} {a : Ans c} : (guarding b pre).guar s c a s' :=
  ⟨h, by rw [hJ]; exact List.prefix_append ..⟩

section Holder
variable {F : Call → Fate → Prop}

/-- The put of a marker, by whichever hold. -/
theorem guarded_put {uri bucket : Str} {key : Key} {l : Fate} {a : Ans (.putObject bucket key [])}
    (hkey : markerKey uri = .ok (bucket, key)) (hs : Guarded b pre s)
    (h : Journaled (Serves F) i s (.putObject bucket key []) l a s') : Guarded b pre s' := by
  obtain ⟨⟨-, hserve⟩, hJ⟩ := h
  have hcase : (s'.1 = s.1 ∧ l ≠ .ok) ∨
      ∃ t, s'.1 = s.1.setBucket bucket ((s.1.s3 bucket).put key ⟨t, [], none⟩) := by
    cases l with
    | ok => exact .inr hserve.2
    | perKey errs => exact hserve.elim
    | fail e => exact .inl ⟨hserve.2, by simp⟩
    | lost e =>
      obtain ⟨-, a', -, hw⟩ := hserve
      exact .inr hw
  refine hs.step hJ rfl (fun k hk => ?_) (fun k _ hr => absurd hr (not_removes (by simp)))
    (fun hp => ?_) fun hk _ => ?_
  · rcases hcase with ⟨hw, -⟩ | ⟨t, hw⟩
    · exact .inl (by rwa [hw] at hk)
    · rw [hw, World.mem_setBucket_put] at hk
      rcases hk with hk | ⟨-, rfl⟩
      · exact .inl hk
      · exact .inr fun p _ hp => .inl (roundTrips_of_markerKey hkey hp)
  · obtain ⟨body, hc, hl⟩ := hp
    obtain ⟨rfl, rfl, -⟩ := Call.putObject.inj hc
    rcases hcase with ⟨-, hn⟩ | ⟨t, hw⟩
    · exact absurd hl hn
    · rw [hw, World.mem_setBucket_put]
      exact .inr ⟨rfl, rfl⟩
  · rcases hcase with ⟨hw, -⟩ | ⟨t, hw⟩
    · rwa [hw]
    · rw [hw, World.mem_setBucket_put]
      exact .inl hk

theorem safe_hold (run : RunRef) : Safe (Journaled (Serves F) i) (guarding b pre) (fun _ _ => True)
    (hold run) s := by
  have hraise : ∀ {α : Type} {e : PyExc} {s : State ι},
      Safe (Journaled (Serves F) i) (guarding b pre) (fun _ _ => True) (raise e : Action α) s :=
    safe_raise stable_true (fun _ h => h) trivial
  rw [hold]
  split
  · exact hraise
  split_ifs
  · exact hraise
  rw [writeRetentionMarker, bind_eq]
  cases hkey : markerKey _ with
  | error e => exact hraise
  | ok place =>
    rw [ofExcept_ok, ret_bind]
    refine Safe.bind (Safe.mono (safe_perform (Q := fun _ _ => True) (fun _ => stable_true)
      fun s₁ hs _ l a s₂ h => ⟨(guarded_put hkey hs h).guar h.2, trivial⟩) ?_)
    rintro (e | u) s₁ - -
    · trivial
    · exact safe_ret stable_true (fun _ h => h) trivial

end Holder

section Collector
variable {F : Call → Fate → Prop}

theorem guarded_look {c : Call} {l : Fate} {a : Ans c} (hc : LookCall c) (hs : Guarded b pre s)
    (h : Journaled (Serves F) i s c l a s') : Guarded b pre s' := by
  have hw := serves_lookCall hc h.1
  refine hs.step h.2 rfl (fun k hk => .inl (by rwa [hw] at hk)) (fun k _ hr => ?_) (fun hp => ?_)
    fun hk _ => by rwa [hw]
  · refine absurd hr (not_removes ?_)
    rintro b keys rfl
    exact hc
  · obtain ⟨body, rfl, -⟩ := hp
    exact hc.elim

theorem SawUnheld.mono {J J' : Journal ι Call Ans Fate World} (h : SawUnheld b pre J i)
    (hJ : J <+: J') : SawUnheld b pre J' i := by
  obtain ⟨st, hst, h⟩ := h
  exact ⟨st, hJ.subset hst, h⟩

/-- A sweep, whatever it is answered, deletes below the prefix only after a scan without a
marker. -/
theorem sweepRule_guarding (h2 : IsTwoField '/' pre)
    (hmark : scanMarkerKey pre = pre ++ retentionMarker) (j : Janitor) :
    SweepRule F i (guarding b pre) j (fun p _ => j.bucket.name = b → Harmless pre p)
      (fun p s => j.bucket.name = b → p = pre → SawUnheld b pre s.2 i) (fun _ _ => True) where
  own := fun _ _ _ _ hg => hg
  stable := fun p => ⟨fun _ _ h _ _ => h, fun _ _ h _ hr hb hp => (h hb hp).mono hr, stable_true⟩
  look := fun hc hs h => (guarded_look hc hs h).guar h.2
  list := fun hs _ h2' ⟨k, hk, hp⟩ hb => hs.clean k (hb ▸ hk) _ h2' hp
  scan := fun {s p l pages s'} _ _ _ h hm hb hp => by
    subst hb hp
    refine ⟨⟨.listObjects j.bucket.name p, l, .ok pages, s'.1⟩, by simp [h.2], rfl, fun hk => ?_⟩
    rw [show s'.1 = s.1 from (journaled_listObjects h).1] at hk
    have hkey : p ++ retentionMarker ∈ ((s.1.s3 j.bucket.name).under p).map Prod.fst :=
      Bucket.mem_under_keys.2 ⟨hk, List.prefix_append ..⟩
    obtain ⟨e, he, hek⟩ := List.mem_map.1 hkey
    rw [Bucket.marked, List.any_eq_false] at hm
    exact hm e he (by simp [hek, hmark])
  ask := fun _ _ _ _ _ => trivial
  delete := fun {s p keys l a s'} hs h2' hrf hp hun _ hk h => by
    have hw := serves_deleteObjects_eq h.1
    refine (hs.step h.2 rfl (fun k hk' => .inl ?_) (fun k hpk hr => ?_) (fun hp => ?_)
      fun hk' hr => ?_).guar h.2
    · rw [hw] at hk'
      exact World.mem_of_mem_deleteKeys hk'
    · obtain ⟨keys', hc, hkk, -⟩ := hr
      obtain ⟨hb, rfl⟩ := Call.deleteObjects.inj hc
      -- a prefix whose URI goes astray meets no key of the held one
      rcases hp hb with (hup | hrf') | ⟨hnot, hnot'⟩
      · have hpk' : p <+: k := hup ▸ hk k hkk
        exact hun hb (twoField_unique h2' h2 hpk' hpk)
      · simp [hrf] at hrf'
      · exact ((List.prefix_or_prefix_of_prefix (hk k hkk) hpk).elim hnot hnot').elim
    · obtain ⟨body, hc, -⟩ := hp
      cases hc
    · rw [hw]
      by_cases hb : b = j.bucket.name
      · subst hb
        refine World.mem_deleteKeys.2 ⟨hk', fun hm => hr ?_⟩
        obtain ⟨hm, hl⟩ := List.mem_filter.1 hm
        exact ⟨keys, rfl, hm, hl⟩
      · rwa [World.deleteKeys, World.setBucket_s3_ne hb]

end Collector

inductive Client where
  | holder (run : RunRef)
  | collector (j : Janitor)

def Client.program : Client → Action Unit
  | .holder run => do
    let _ ← hold run
    return ()
  | .collector j => do
    let _ ← j.sweep true
    return ()

def clients (client : ι → Client) (w : World) : Pool ι Call Ans PyExc Unit (State ι) :=
  ⟨(w, []), fun i => (client i).program⟩

def RunsChange (s s' : State ι) : Prop := s'.1.s3 = s.1.s3 ∧ s'.2 = s.2

abbrev AnyFate : Call → Fate → Prop := fun _ _ => True

theorem heldSince_nil : ¬ HeldSince b pre ([] : Journal ι Call Ans Fate World) := by
  rintro ⟨J₁, e, J₂, h, -⟩
  simp at h

theorem guarded_start {w : World}
    (h : ∀ k ∈ w.s3 b, ∀ p, IsTwoField '/' p → p <+: k → Harmless pre p) :
    Guarded b pre ((w, []) : State ι) where
  clean := h
  seen := fun J₁ i st J₂ h => by simp at h
  stays := fun h => absurd h heldSince_nil
  shown := fun J₁ e J₂ h => by simp at h

theorem Guarded.runsChange (hs : Guarded b pre s) (h : RunsChange s s') : Guarded b pre s' := by
  obtain ⟨hs3, hJ⟩ := h
  exact ⟨by rw [hs3]; exact hs.clean, by rw [hJ]; exact hs.seen, by rw [hJ, hs3]; exact hs.stays,
    by rw [hJ]; exact hs.shown⟩

theorem reaches_guarded [DecidableEq ι] {client : ι → Client} {w : World} (h2 : IsTwoField '/' pre)
    (hmark : scanMarkerKey pre = pre ++ retentionMarker)
    (hclean : ∀ k ∈ w.s3 b, ∀ p, IsTwoField '/' p → p <+: k → Harmless pre p)
    {s : Pool ι Call Ans PyExc Unit (State ι)}
    (h : Pool.Reaches (Journaled (Serves AnyFate)) RunsChange (clients client w) s) :
    Guarded b pre s.world := by
  refine (pool_invariant (K := fun _ => guarding b pre) (Q := fun _ _ _ => True) (fun _ => rfl)
    (fun _ _ _ _ _ _ hg => hg.1) (fun _ _ _ _ _ _ _ _ hg => hg.2)
    (fun s s' hs hc => ⟨hs.runsChange hc, fun _ => by
      change s.2 <+: s'.2
      rw [hc.2]⟩) h (guarded_start hclean) fun i => ?_).1
  change Safe _ _ _ (client i).program (w, [])
  cases client i with
  | holder run => exact safe_discard (safe_hold run)
  | collector j => exact safe_discard ((sweepRule_guarding h2 hmark j).safe_sweep true)

section Honoured
variable {J₁ J₂ : Journal ι Call Ans Fate World} {e : ι × Step Call Ans Fate World}

/-- After a hold, everyone sees the marker until somebody deletes it. -/
theorem Guarded.shown_after (hs : Guarded b pre s) (hJ : s.2 = J₁ ++ e :: J₂) (hp : Posts b pre e.2)
    {A : Journal ι Call Ans Fate World} (hA : A <+: J₂)
    (hkept : ∀ e' ∈ A, ¬ Removes b (pre ++ retentionMarker) e'.2) :
    ∀ e' ∈ A, pre ++ retentionMarker ∈ e'.2.after.s3 b := by
  intro e' he'
  obtain ⟨B, rfl⟩ := hA
  obtain ⟨A₁, A₂, rfl⟩ := List.append_of_mem he'
  refine hs.shown (J₁ ++ e :: A₁) e' (A₂ ++ B) (by simp [hJ]) ⟨J₁, e, A₁ ++ [e'], by simp, hp, ?_⟩
  intro x hx
  refine hkept x ?_
  simp only [List.mem_append, List.mem_cons, List.not_mem_nil, or_false] at hx ⊢
  tauto

/-- A thread that saw the prefix without a marker saw it before the hold. -/
theorem Guarded.saw_before (hs : Guarded b pre s) (hJ : s.2 = J₁ ++ e :: J₂) (hp : Posts b pre e.2)
    {A : Journal ι Call Ans Fate World} (hA : A <+: J₂)
    (hkept : ∀ e' ∈ A, ¬ Removes b (pre ++ retentionMarker) e'.2)
    (hsaw : SawUnheld b pre (J₁ ++ e :: A) i) :
    ∃ st, (i, st) ∈ J₁ ∧ st.call = .listObjects b pre := by
  obtain ⟨st, hst, hc, hm⟩ := hsaw
  rcases List.mem_append.1 hst with hst | hst
  · exact ⟨st, hst, hc⟩
  rcases List.mem_cons.1 hst with rfl | hst
  · obtain ⟨body, hput, -⟩ := hp
    cases hc.symm.trans hput
  · exact absurd (hs.shown_after hJ hp hA hkept _ hst) hm

/-- Unless a thread that listed the prefix before the hold deletes the marker, nobody does. -/
theorem Guarded.marker_kept (hs : Guarded b pre s) (hJ : s.2 = J₁ ++ e :: J₂) (hp : Posts b pre e.2)
    (hothers : ∀ i st, (i, st) ∈ J₁ → st.call = .listObjects b pre →
      ∀ st', (i, st') ∈ J₂ → ¬ Removes b (pre ++ retentionMarker) st') :
    ∀ e' ∈ J₂, ¬ Removes b (pre ++ retentionMarker) e'.2 := by
  have key : ∀ A B, J₂ = A ++ B → ∀ e' ∈ A, ¬ Removes b (pre ++ retentionMarker) e'.2 := by
    intro A
    induction A using List.reverseRecOn with
    | nil => simp
    | append_singleton A x ih =>
      intro B hB e' he'
      have hA : J₂ = A ++ ([x] ++ B) := by rw [hB, List.append_assoc]
      rcases List.mem_append.1 he' with he' | he'
      · exact ih _ hA e' he'
      · obtain rfl := List.mem_singleton.1 he'
        obtain ⟨i, st'⟩ := e'
        intro hr
        have hsaw := hs.seen (J₁ ++ e :: A) i st' B (by simp [hJ, hB]) _ (List.prefix_append ..) hr
        obtain ⟨st, hst, hc⟩ := hs.saw_before hJ hp ⟨_, hA.symm⟩ (ih _ hA) hsaw
        exact hothers i st hst hc st' (by simp [hB]) hr
  exact key J₂ [] (by simp)

/-- When hold returns before a sweep scans the prefix of its run, that sweep deletes nothing below
it, unless a sweep that had scanned it earlier deletes the marker or the URI of another prefix in
the bucket leads there. -/
theorem hold_keeps_prefix [DecidableEq ι] (client : ι → Client) {w : World}
    (hclean : ∀ k ∈ w.s3 b, ∀ p, IsTwoField '/' p → p <+: k → Harmless pre p)
    {s : Pool ι Call Ans PyExc Unit (State ι)}
    (h : Pool.Reaches (Journaled (Serves AnyFate)) RunsChange (clients client w) s)
    {hd : ι} (hrun : client hd = .holder run) (hlives : LivesAt run b pre)
    {st : Step Call Ans Fate World} (hJ : s.world.2 = J₁ ++ (hd, st) :: J₂) (hret : st.label = .ok)
    (hscan : ∀ st, (i, st) ∈ J₁ → st.call ≠ .listObjects b pre)
    (hothers : ∀ i st, (i, st) ∈ J₁ → st.call = .listObjects b pre →
      ∀ st', (i, st') ∈ J₂ → ¬ Removes b (pre ++ retentionMarker) st') :
    ∀ st', (i, st') ∈ s.world.2 → ∀ k, pre <+: k → ¬ Removes b k st' := by
  have hs := reaches_guarded hlives.twoField hlives.scanMarkerKey_eq hclean h
  have hcall : st.call = .putObject b (pre ++ retentionMarker) [] := by
    have huses :=
      (reaches_uses (S := fun i c => i = hd → c = .putObject b (pre ++ retentionMarker) [])
      (fun _ _ hc => hc.2) h (fun i => ?_) (by simp [clients])).2 (hd, st) (by simp [hJ])
    · exact huses rfl
    · by_cases hi : i = hd
      · change (client i).program.Uses _
        rw [hi, hrun, Client.program, hlives.hold_eq]
        exact Uses.bind (Uses.bind (uses_request fun _ => rfl) fun _ => trivial) fun _ => trivial
      · exact uses_of_forall (fun c h => absurd h hi) _
  have hp : Posts b pre st := ⟨[], hcall, hret⟩
  -- the marker stays in every state after the put
  have hkept := hs.marker_kept hJ hp hothers
  intro st' hst k hk hr
  obtain ⟨K₁, K₂, hK⟩ := List.append_of_mem hst
  -- a sweep that deletes has listed the prefix without seeing a marker, so before the put
  obtain ⟨st₀, hst₀, hc₀, hm₀⟩ := hs.seen K₁ i st' K₂ hK k hk hr
  have hmem : (i, st₀) ∈ J₁ ++ (hd, st) :: J₂ := by
    rw [← hJ, hK]
    exact List.mem_append_left _ hst₀
  obtain ⟨st₁, hst₁, hc₁⟩ := hs.saw_before hJ hp List.prefix_rfl hkept ⟨st₀, hmem, hc₀, hm₀⟩
  exact hscan st₁ hst₁ hc₁

/-- A hold of the sample run, and a collector. -/
def sampleHeld : RunRef := toRef (sampleRunId '0',
  newRun ['0'] [(artifactsUriTag, artifactsUri ['b'] ['a'] (sampleRunId '0'))] [] none)

def sampleClient : Bool → Client
  | true => .holder sampleHeld
  | false => .collector sampleJanitor

/-- One object, of a run that MLflow does not have. -/
def oneOrphan : World := .of ['b'] [sampleArtifact] [] []

def holdSchedule (is : List Bool) : Pool Bool Call Ans PyExc Unit (State Bool) :=
  (clients sampleClient oneOrphan).schedule (journaling fun _ => serve fun _ => .ok) is

theorem reaches_holdSchedule (is : List Bool) : Pool.Reaches (Journaled (Serves AnyFate)) RunsChange
    (clients sampleClient oneOrphan) (holdSchedule is) :=
  reaches_schedule (R := Journaled (Serves AnyFate))
    (journaled_journaling (R := fun _ => Serves AnyFate)
    fun _ _ _ => serves_serve trivial) _ _

theorem livesAt_sampleHeld : LivesAt sampleHeld ['b'] (sampleRunPrefix '0') :=
  livesAt_artifactsUri sampleBucket (by decide) (by decide) rfl

/-- Beside that object one whose alias a URI does not keep. -/
def besideStray : World :=
  .of ['b'] [sampleArtifact, "x\ty/".toList ++ sampleRunId '1' ++ "/x".toList] [] []

theorem besideStray_spares : ∀ k ∈ besideStray.s3 ['b'], ∀ p, IsTwoField '/' p → p <+: k →
    Harmless (sampleRunPrefix '0') p := by
  intro k hk p h2 hp
  have hkeys : k = "x\ty/".toList ++ sampleRunId '1' ++ "/x".toList ∨ k = sampleArtifact := by
    simpa [besideStray, World.of, Bucket.ofKeys] using hk
  rcases hkeys.symm with rfl | rfl
  · obtain rfl := twoField_unique h2 livesAt_sampleHeld.twoField hp (List.prefix_append ..)
    exact .inl (.inl (by decide))
  · have hstray : IsTwoField '/' (runPrefix "x\ty".toList (sampleRunId '1')) :=
      runPrefix_isTwoField (by decide) (by decide)
    obtain rfl := twoField_unique h2 hstray hp (by decide)
    exact .inr ⟨by decide, by decide⟩

def straySchedule (is : List Bool) : Pool Bool Call Ans PyExc Unit (State Bool) :=
  (clients sampleClient besideStray).schedule (journaling fun _ => serve fun _ => .ok) is

theorem reaches_straySchedule (is : List Bool) :
    Pool.Reaches (Journaled (Serves AnyFate)) RunsChange (clients sampleClient besideStray)
      (straySchedule is) :=
  reaches_schedule (R := Journaled (Serves AnyFate))
    (journaled_journaling (R := fun _ => Serves AnyFate) fun _ _ _ => serves_serve trivial) _ _

def Fate.isOk : Fate → Bool
  | .ok => true
  | _ => false

theorem journal_split {J : Journal Bool Call Ans Fate World} (n : ℕ)
    (h : (J[n]?.any fun e => e.1 && e.2.label.isOk) = true) :
    ∃ st, J = J.take n ++ (true, st) :: J.drop (n + 1) ∧ st.label = .ok := by
  rw [Option.any_eq_true] at h
  obtain ⟨⟨i, st⟩, he, h⟩ := h
  obtain ⟨hn, he⟩ := List.getElem?_eq_some_iff.1 he
  rw [Bool.and_eq_true] at h
  refine ⟨st, ?_, ?_⟩
  · rw [← show i = true from h.1, ← he, ← List.drop_eq_getElem_cons hn, List.take_append_drop]
  · cases hl : st.label <;> simp_all [Fate.isOk]

/-- The hold returns first, then the collector sweeps, to its end. -/
theorem hold_keeps_prefix_early : ∃ (s : Pool Bool Call Ans PyExc Unit (State Bool))
    (J₁ J₂ : Journal Bool Call Ans Fate World) (st : Step Call Ans Fate World),
    Pool.Reaches (Journaled (Serves AnyFate)) RunsChange (clients sampleClient besideStray) s ∧
    s.world.2 = J₁ ++ (true, st) :: J₂ ∧ st.label = .ok ∧ 9 ≤ J₂.length ∧
    ∀ st', (false, st') ∈ s.world.2 → ∀ k, sampleRunPrefix '0' <+: k → ¬ Removes ['b'] k st' := by
  have hr := reaches_straySchedule (true :: List.replicate 9 false)
  obtain ⟨st, hJ, hl⟩ := journal_split (J := (straySchedule
    (true :: List.replicate 9 false)).world.2) 0 (by decide +kernel)
  refine ⟨_, _, _, st, hr, hJ, hl, by decide +kernel, ?_⟩
  exact hold_keeps_prefix sampleClient besideStray_spares hr rfl livesAt_sampleHeld hJ hl
    (by simp) (by simp)

/-- The hold returns between the collector's scan and its deletion, which takes the object. -/
theorem hold_overrun : ∃ (s : Pool Bool Call Ans PyExc Unit (State Bool))
    (J₁ J₂ : Journal Bool Call Ans Fate World) (st : Step Call Ans Fate World),
    Pool.Reaches (Journaled (Serves AnyFate)) RunsChange (clients sampleClient oneOrphan) s ∧
    s.world.2 = J₁ ++ (true, st) :: J₂ ∧ st.label = .ok ∧
    (∀ e ∈ J₁, deleteRequest e.2.call = none) ∧
    ∃ e ∈ J₂, e.1 = false ∧ Removes ['b'] sampleArtifact e.2 := by
  have hr := reaches_holdSchedule [false, false, false, false, false, true, false, false]
  obtain ⟨st, hJ, hl⟩ := journal_split (J := (holdSchedule
    [false, false, false, false, false, true, false, false]).world.2) 5 (by decide +kernel)
  exact ⟨_, _, _, st, hr, hJ, hl, by decide +kernel, by decide +kernel⟩

end Honoured

end Accel.Model
