import AccelProf.Model.S3Layout

/-! What the S3 calls of a listing and of a prefix deletion do to a bucket. -/

namespace Accel.Model
open Data Program Prog

variable {F : Call → Fate → Prop} {w w' : World} {tr : List (Step Call Ans Fate World)}

theorem exec_request {R : Service Call Ans Fate World} {c : Call} {r : Ans c} :
    Exec R (request c) w tr r w' ↔ ∃ l, R w c l r w' ∧ tr = [⟨c, l, r, w'⟩] := exec_perform

theorem uses_request {S : Call → Prop} {c : Call} (hc : S c) : (request c).Uses S :=
  uses_perform hc

theorem uses_ofExcept {S : Call → Prop} {α : Type} (x : Except PyExc α) :
    (ofExcept x : Action α).Uses S := by
  cases x <;> trivial

theorem uses_ite {S : Call → Prop} {α : Type} {c : Prop} [Decidable c] {p q : Action α}
    (hp : p.Uses S) (hq : q.Uses S) : (if c then p else q).Uses S := by
  split_ifs
  · exact hp
  · exact hq

def DeleteCall : Call → Prop
  | .listObjects .. => True
  | .deleteObjects .. => True
  | _ => False

theorem uses_deletePrefix (uri : Str) : (deletePrefix uri).Uses DeleteCall := by
  refine (uses_ofExcept _).bind fun parsed => uses_ite trivial ?_
  refine Uses.bind ?_ fun keys => uses_foldlM (fun n batch _ => ?_) 0
  · exact (uses_ofExcept _).bind fun _ => (uses_request trivial).bind fun _ => trivial
  · refine (uses_request trivial).bind fun resp => ?_
    cases resp.errors <;> trivial

theorem World.deleteKeys_nil (w : World) (b : Str) : w.deleteKeys b [] = w := by
  have h : (w.s3 b).restrict (fun k => decide (k ∉ ([] : List Key))) = w.s3 b :=
    SortedMap.restrict_eq_self fun k _ => by simp
  rw [World.deleteKeys, h, World.setBucket, Function.update_eq_self]

theorem World.deleteKeys_append (w : World) (b : Str) (xs ys : List Key) :
    (w.deleteKeys b xs).deleteKeys b ys = w.deleteKeys b (xs ++ ys) := by
  have h : ((w.s3 b).restrict (· ∉ xs)).restrict (· ∉ ys) = (w.s3 b).restrict (· ∉ xs ++ ys) := by
    rw [SortedMap.restrict_restrict]
    exact SortedMap.restrict_congr fun k _ => by simp
  rw [World.deleteKeys, deleteKeys_s3_self, h]
  simp [World.deleteKeys, World.setBucket]

theorem World.mem_deleteKeys {w : World} {b : Str} {keys : List Key} {k : Key} :
    k ∈ (w.deleteKeys b keys).s3 b ↔ k ∈ w.s3 b ∧ k ∉ keys := by
  simp

theorem World.mem_of_mem_deleteKeys {w : World} {b b' : Str} {keys : List Key} {k : Key}
    (h : k ∈ (w.deleteKeys b keys).s3 b') : k ∈ w.s3 b' := by
  by_cases hb : b' = b
  · subst hb
    exact (World.mem_deleteKeys.1 h).1
  · rwa [World.deleteKeys, World.setBucket_s3_ne hb] at h

theorem World.mem_setBucket_put {w : World} {b b' : Str} {key k : Key} {obj : Obj} :
    k ∈ (w.setBucket b ((w.s3 b).put key obj)).s3 b' ↔ k ∈ w.s3 b' ∨ b' = b ∧ k = key := by
  by_cases hb : b' = b
  · subst hb
    rw [World.setBucket_s3_self, SortedMap.mem_put]
    tauto
  · rw [World.setBucket_s3_ne hb]
    tauto

theorem Bucket.mem_under {m : Bucket} {pre : Key} {e : Key × Obj} :
    e ∈ m.under pre ↔ e ∈ m.entries ∧ pre <+: e.1 := by
  simp [Bucket.under]

theorem Bucket.mem_under_keys {m : Bucket} {pre k : Key} :
    k ∈ (m.under pre).map Prod.fst ↔ k ∈ m ∧ pre <+: k := by
  rw [List.mem_map, SortedMap.mem_def]
  constructor
  · rintro ⟨e, he, rfl⟩
    obtain ⟨he, hp⟩ := Bucket.mem_under.1 he
    exact ⟨⟨e.2, he⟩, hp⟩
  · rintro ⟨⟨v, hv⟩, hp⟩
    exact ⟨(k, v), Bucket.mem_under.2 ⟨hv, hp⟩, rfl⟩

section Serves
variable {l : Fate}

theorem serves_listCommonPrefixes {b : Str} {pre : Key} {a : Ans (.listCommonPrefixes b pre)}
    (h : Serves F w (.listCommonPrefixes b pre) l a w') : w' = w ∧
      ((∃ pages, a = .ok pages ∧ pages.toList = commonPrefixes '/' (w.s3 b).keys pre) ∨
        ∃ e, a = .error (.service e) ∧ l ≠ .ok) := by
  obtain ⟨-, h⟩ := h
  cases l with
  | ok => exact ⟨h.1, .inl h.2⟩
  | perKey errs => exact h.elim
  | fail e => exact ⟨h.2, .inr ⟨e, h.1, by simp⟩⟩
  | lost e =>
    obtain ⟨h₁, a', h₂, -⟩ := h
    exact ⟨h₂, .inr ⟨e, h₁, by simp⟩⟩

theorem serves_listObjects {b : Str} {pre : Key} {a : Ans (.listObjects b pre)}
    (h : Serves F w (.listObjects b pre) l a w') : w' = w ∧
      ((∃ pages, a = .ok pages ∧ pages.toList = ((w.s3 b).under pre).map listed) ∨
        ∃ e, a = .error (.service e) ∧ l ≠ .ok) := by
  obtain ⟨-, h⟩ := h
  cases l with
  | ok => exact ⟨h.1, .inl h.2⟩
  | perKey errs => exact h.elim
  | fail e => exact ⟨h.2, .inr ⟨e, h.1, by simp⟩⟩
  | lost e =>
    obtain ⟨h₁, a', h₂, -⟩ := h
    exact ⟨h₂, .inr ⟨e, h₁, by simp⟩⟩

/-- Whatever its fate, a batch delete removes some of the requested keys and nothing else; all of
them when its answer reports no error. -/
theorem serves_deleteObjects {b : Str} {keys : List Key} {a : Ans (.deleteObjects b keys)}
    (h : Serves F w (.deleteObjects b keys) l a w') :
    ∃ removed, removed ⊆ keys ∧ w' = w.deleteKeys b removed ∧
      (∀ resp, a = .ok resp → resp.errors = [] → removed = keys ∧ resp.deleted = some keys) ∧
      (l = .ok → a = .ok ⟨some keys, []⟩) ∧ (∀ e, a = .error e → ∃ e', e = .service e') := by
  obtain ⟨-, h⟩ := h
  cases l with
  | ok => exact ⟨keys, fun _ h => h, h.2, fun resp hr _ => by
      obtain rfl := Except.ok.inj (h.1.symm.trans hr)
      exact ⟨rfl, rfl⟩, fun _ => h.1, fun e he => by simp [h.1] at he⟩
  | perKey errs =>
    obtain ⟨rfl, hw⟩ := h
    refine ⟨_, fun k hk => List.mem_of_mem_filter hk, hw, fun resp hr he => ?_, by simp, by simp⟩
    obtain rfl := Except.ok.inj hr
    have hall : ∀ k ∈ keys, k ∉ errs := by simpa [List.filter_eq_nil_iff] using he
    have : keys.filter (· ∉ errs) = keys := List.filter_eq_self.2 (by simpa using hall)
    exact ⟨this, congrArg some this⟩
  | fail e =>
    exact ⟨[], by simp, by rw [w.deleteKeys_nil, h.2], fun resp hr => by simp [h.1] at hr,
      by simp, fun e' he => ⟨e, (Except.error.inj (h.1.symm.trans he)).symm⟩⟩
  | lost e =>
    obtain ⟨h₁, a', -, h₂⟩ := h
    exact ⟨keys, fun _ h => h, h₂, fun resp hr => by simp [h₁] at hr, by simp,
      fun e' he => ⟨e, (Except.error.inj (h₁.symm.trans he)).symm⟩⟩

/-- Whether a batch delete that meets this fate deletes the key. -/
def Fate.deletes : Fate → Key → Bool
  | .ok, _ => true
  | .perKey errs, key => key ∉ errs
  | .fail _, _ => false
  | .lost _, _ => true

/-- A batch delete of the key that the server carried out. -/
def Removes (b : Str) (key : Key) (st : Step Call Ans Fate World) : Prop :=
  ∃ keys, st.call = .deleteObjects b keys ∧ key ∈ keys ∧ st.label.deletes key = true

def deleteRequest : Call → Option (Str × List Key)
  | .deleteObjects b keys => some (b, keys)
  | _ => none

theorem removes_iff {b : Str} {key : Key} {st : Step Call Ans Fate World} : Removes b key st ↔
    ((deleteRequest st.call).any fun r => r.1 = b ∧ key ∈ r.2 ∧ st.label.deletes key) = true := by
  simp only [Option.any_eq_true, decide_eq_true_eq]
  constructor
  · rintro ⟨keys, hc, hk, hl⟩
    exact ⟨(b, keys), by rw [hc]; rfl, rfl, hk, hl⟩
  · rintro ⟨r, hr, rfl, hk, hl⟩
    refine ⟨r.2, ?_, hk, hl⟩
    cases hc : st.call <;> simp only [hc, deleteRequest, reduceCtorEq, Option.some.injEq] at hr
    rw [← hr]

instance (b : Str) (key : Key) (st : Step Call Ans Fate World) : Decidable (Removes b key st) :=
  decidable_of_iff' _ removes_iff

theorem not_removes {c : Call} (hc : ∀ b keys, c ≠ .deleteObjects b keys) {l : Fate} {a : Ans c}
    {w : World} {b : Str}
    {k : Key} : ¬ Removes b k ⟨c, l, a, w⟩ := by
  rintro ⟨keys, h, -⟩
  exact hc _ _ h

theorem serves_deleteObjects_eq {b : Str} {keys : List Key} {a : Ans (.deleteObjects b keys)}
    (h : Serves F w (.deleteObjects b keys) l a w') :
    w' = w.deleteKeys b (keys.filter l.deletes) := by
  obtain ⟨-, h⟩ := h
  have htrue : keys.filter (fun _ => true) = keys := List.filter_eq_self.2 fun _ _ => rfl
  cases l with
  | ok => exact h.2.trans (congrArg _ htrue.symm)
  | perKey errs => exact h.2
  | fail e =>
    have hnil : keys.filter (Fate.fail e).deletes = [] := List.filter_eq_nil_iff.2 fun _ _ => by
      simp [Fate.deletes]
    rw [hnil, World.deleteKeys_nil, h.2]
  | lost e =>
    obtain ⟨-, a', -, h⟩ := h
    exact h.trans (congrArg _ htrue.symm)

theorem not_mem_of_removes {b : Str} {key : Key} {st : Step Call Ans Fate World}
    (hr : Removes b key st)
    (h : Serves F w st.call st.label st.answer st.after) : key ∉ st.after.s3 b := by
  obtain ⟨keys, hc, hk, hl⟩ := hr
  obtain ⟨c, l, a, w₂⟩ := st
  obtain rfl : c = .deleteObjects b keys := hc
  rw [serves_deleteObjects_eq h, World.mem_deleteKeys]
  exact fun hm => hm.2 (List.mem_filter.2 ⟨hk, hl⟩)

end Serves

/-- The fault model serves every listing. -/
def ListsOk (F : Call → Fate → Prop) : Prop :=
  (∀ b pre l, F (.listCommonPrefixes b pre) l → l = .ok) ∧ ∀ b pre l, F (.listObjects b pre) l →
    l = .ok

/-- The fault model serves every batch delete in full. -/
def DeletesOk (F : Call → Fate → Prop) : Prop := ∀ b keys l, F (.deleteObjects b keys) l → l = .ok

theorem exec_listPrefix {uri : Str} {p : ParsedS3Uri} {r : Except PyExc (List Key)}
    (hp : parseS3Uri uri = .ok p) (h : Exec (Serves F) (listPrefix uri) w tr r w') : w' = w ∧
      (r = .ok (((w.s3 p.bucket).under p.key).map Prod.fst) ∨
        (¬ ListsOk F ∧ ∃ e, r = .error (.service e))) := by
  simp only [listPrefix, hp, ofExcept_ok, bind_eq, ret_bind, pure_eq] at h
  rcases exec_bind.1 h with ⟨e, he, rfl⟩ | ⟨pages, tr₁, tr₂, w₁, h₁, ⟨-, rfl, rfl⟩, -⟩
  · obtain ⟨l, hs, -⟩ := exec_request.1 he
    obtain ⟨rfl, ⟨pages, ha, -⟩ | ⟨e', ha, hl⟩⟩ := serves_listObjects hs
    · cases ha
    · exact ⟨rfl, .inr ⟨fun hok => hl (hok.2 _ _ _ hs.1), e', by cases ha; rfl⟩⟩
  · obtain ⟨l, hs, -⟩ := exec_request.1 h₁
    obtain ⟨rfl, ⟨pages', ha, hl⟩ | ⟨e', ha, -⟩⟩ := serves_listObjects hs
    · obtain rfl := Except.ok.inj ha
      refine ⟨rfl, .inl ?_⟩
      rw [Pages.collect_eq, hl, List.map_map]
      rfl
    · cases ha

/-- The loop over the batches: what is gone afterwards was requested; if it ends normally, every
requested key is gone and was counted. -/
theorem exec_deleteLoop {b : Str} {batches : List (List Key)} {n : ℕ} {r : Except PyExc ℕ}
    (h : Exec (Serves F) (batches.foldlM (deleteOne b) n) w tr r w') :
    ∃ removed, removed ⊆ batches.flatten ∧ w' = w.deleteKeys b removed ∧
      (∀ m, r = .ok m → removed = batches.flatten ∧ m = n + batches.flatten.length) ∧
      (DeletesOk F → ∃ m, r = .ok m) ∧ (∀ e, r = .error e → e.isJanitorAbort = false) := by
  induction batches generalizing n w tr with
  | nil =>
    obtain ⟨-, rfl, rfl⟩ := h
    exact ⟨[], by simp, by rw [World.deleteKeys_nil], by simp, by simp, by simp⟩
  | cons batch rest ih =>
    rw [List.foldlM_cons, bind_eq] at h
    -- one request: S3 may delete part of its keys, and says which are left
    have hone : ∀ {tr r₁ w₁}, Exec (Serves F) (deleteOne b n batch) w tr r₁ w₁ →
        ∃ removed, removed ⊆ batch ∧ w₁ = w.deleteKeys b removed ∧
          (∀ m, r₁ = .ok m → removed = batch ∧ m = n + batch.length) ∧
          (DeletesOk F → ∃ m, r₁ = .ok m) ∧ (∀ e, r₁ = .error e → e.isJanitorAbort = false) := by
      intro tr r₁ w₁ h₁
      simp only [deleteOne, bind_eq] at h₁
      rcases exec_bind.1 h₁ with ⟨e, he, rfl⟩ | ⟨resp, tr₁, tr₂, w₂, hreq, htail, -⟩
      · obtain ⟨l, hs, -⟩ := exec_request.1 he
        obtain ⟨removed, hsub, hw, -, hok, herr⟩ := serves_deleteObjects hs
        refine ⟨removed, hsub, hw, by simp, fun hd => ?_, fun e' he' => ?_⟩
        · simpa using hok (hd _ _ _ hs.1)
        · obtain ⟨e'', rfl⟩ := herr e rfl
          cases he'
          rfl
      · obtain ⟨l, hs, -⟩ := exec_request.1 hreq
        obtain ⟨removed, hsub, hw, hall, hok, -⟩ := serves_deleteObjects hs
        refine ⟨removed, hsub, ?_⟩
        cases herrs : resp.errors with
        | nil =>
          rw [herrs] at htail
          obtain ⟨-, rfl, rfl⟩ := htail
          obtain ⟨hrm, hdel⟩ := hall resp rfl herrs
          refine ⟨hw, fun m hm => ⟨hrm, ?_⟩, fun _ => ⟨_, rfl⟩, by simp⟩
          rw [← Except.ok.inj hm, hdel]
          rfl
        | cons k ks =>
          rw [herrs] at htail
          obtain ⟨-, rfl, rfl⟩ := htail
          refine ⟨hw, by simp, fun hd => ?_, by rintro _ ⟨⟩; rfl⟩
          have := Except.ok.inj (hok (hd _ _ _ hs.1))
          rw [this] at herrs
          cases herrs
    rcases exec_bind.1 h with ⟨e, he, rfl⟩ | ⟨m, tr₁, tr₂, w₁, h₁, h₂, -⟩
    · obtain ⟨removed, hsub, hw, -, hd, herr⟩ := hone he
      exact ⟨removed, fun k hk => by simp [hsub hk], hw, by simp, fun hF => by
        simpa using hd hF, fun e' he' => herr e' (by cases he'; rfl)⟩
    · obtain ⟨rm₁, hsub₁, rfl, hok₁, -, -⟩ := hone h₁
      obtain ⟨rfl, rfl⟩ := hok₁ m rfl
      obtain ⟨rm₂, hsub₂, rfl, hok₂, hd₂, herr₂⟩ := ih h₂
      refine ⟨rm₁ ++ rm₂, ?_, by rw [World.deleteKeys_append], fun m' hm' => ?_, hd₂, herr₂⟩
      · intro k hk
        rcases List.mem_append.1 hk with hk | hk
        · simp [hk]
        · simp [hsub₂ hk]
      · obtain ⟨rfl, rfl⟩ := hok₂ m' hm'
        simp [Nat.add_assoc]

theorem exec_deletePrefix {uri : Str} {p : ParsedS3Uri} {r : Except PyExc ℕ}
    (hp : parseS3Uri uri = .ok p) (hk : p.key ≠ [])
    (h : Exec (Serves F) (deletePrefix uri) w tr r w') :
    ∃ removed, (∀ k ∈ removed, k ∈ w.s3 p.bucket ∧ p.key <+: k) ∧
      w' = w.deleteKeys p.bucket removed ∧
      (∀ n, r = .ok n → removed = ((w.s3 p.bucket).under p.key).map Prod.fst ∧
        n = ((w.s3 p.bucket).under p.key).length) ∧
      (ListsOk F → DeletesOk F → ∃ n, r = .ok n) ∧
      (∀ e, r = .error e → e.isJanitorAbort = false) := by
  simp only [deletePrefix, hp, ofExcept_ok, bind_eq, ret_bind, if_neg hk] at h
  rcases exec_bind.1 h with ⟨e, he, rfl⟩ | ⟨keys, tr₁, tr₂, w₁, h₁, h₂, -⟩
  · obtain ⟨rfl, h' | ⟨hl, e', h'⟩⟩ := exec_listPrefix hp he
    · cases h'
    · refine ⟨[], by simp, by rw [World.deleteKeys_nil], by simp, fun hok => absurd hok hl, ?_⟩
      rintro e₂ he₂
      cases h'
      cases he₂
      rfl
  · obtain ⟨rfl, h' | ⟨-, e', h'⟩⟩ := exec_listPrefix hp h₁
    · obtain rfl := Except.ok.inj h'
      obtain ⟨removed, hsub, rfl, hok, hd, herr⟩ := exec_deleteLoop h₂
      rw [flatten_slices (by decide)] at hsub hok
      refine ⟨removed, fun k hk => Bucket.mem_under_keys.1 (hsub hk), rfl, fun n hn => ?_,
        fun _ => hd, herr⟩
      obtain ⟨rfl, rfl⟩ := hok n hn
      simp
    · cases h'

end Accel.Model
