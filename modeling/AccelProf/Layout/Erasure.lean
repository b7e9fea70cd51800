import AccelProf.Layout.Uri
import AccelProf.Spec.Deletion
import AccelProf.Spec.Reference

/-! A prefix deletion batch by batch: what it requests, what each answer removes, and that it ends
normally exactly when nothing failed. -/

namespace Accel.Model
open Data Program Prog

variable {F : Call → Fate → Prop} {w w' w₁ : World} {tr : List (Step Call Ans Fate World)} {b : Str}
  {S S' : Key → Prop}

/-- The objects of bucket `b` whose keys satisfy `S` are gone; nothing else differs. -/
structure Erases (b : Str) (S : Key → Prop) (w w' : World) : Prop where
  mlflow : w'.mlflow = w.mlflow
  others : ∀ b', b' ≠ b → w'.s3 b' = w.s3 b'
  entries : ∀ e, e ∈ (w'.s3 b).entries ↔ e ∈ (w.s3 b).entries ∧ ¬ S e.1

theorem erases_deleteKeys (keys : List Key) : Erases b (· ∈ keys) w (w.deleteKeys b keys) := by
  refine ⟨rfl, fun b' hb => World.setBucket_s3_ne hb, fun e => ?_⟩
  rw [World.deleteKeys_s3_self, SortedMap.mem_restrict_entries, decide_eq_true_iff]

theorem Erases.trans (h : Erases b S w w₁) (h' : Erases b S' w₁ w') :
    Erases b (fun k => S k ∨ S' k) w w' where
  mlflow := h'.mlflow.trans h.mlflow
  others := fun b' hb => (h'.others b' hb).trans (h.others b' hb)
  entries := fun e => by
    rw [h'.entries, h.entries]
    tauto

theorem Erases.congr (h : Erases b S w w') (hS : ∀ k ∈ w.s3 b, S k ↔ S' k) : Erases b S' w w' where
  mlflow := h.mlflow
  others := h.others
  entries := fun e => by
    rw [h.entries]
    exact and_congr_right fun he => not_congr (hS _ (SortedMap.mem_of_entry he))

/-- The call failed, or the answer of a batch delete reports an error for a key it was asked to
delete. -/
def Fails (st : Step Call Ans Fate World) : Prop :=
  match st.label with
  | .ok => False
  | .perKey errs => ∃ b keys, st.call = .deleteObjects b keys ∧ ∃ k ∈ keys, k ∈ errs
  | .fail _ => True
  | .lost _ => True

/-- The keys that the batch deletes of a trace ask to delete, in order. -/
def requested (tr : List (Step Call Ans Fate World)) : List Key :=
  tr.flatMap fun st => ((deleteRequest st.call).map Prod.snd).getD []

/-- The program ended with an exception because its last call failed, and no earlier one did. -/
def FailsLast {α : Type} (tr : List (Step Call Ans Fate World)) (r : Except PyExc α) : Prop :=
  (∃ e, r = .error e) ∧ ∃ before st, tr = before ++ [st] ∧ Fails st ∧ ∀ st' ∈ before, ¬ Fails st'

section Batch
variable {batch : List Key} {n : ℕ} {r : Except PyExc ℕ}

/-- One batch: its keys are removed as its fate says, and it is counted exactly when it did not
fail. -/
theorem exec_deleteOne (h : Exec (Serves F) (deleteOne b n batch) w tr r w') :
    ∃ st, tr = [st] ∧ st.call = .deleteObjects b batch ∧ Erases b (Removes b · st) w w' ∧
      ((¬ Fails st ∧ r = .ok (n + batch.length) ∧ ∀ k ∈ batch, Removes b k st) ∨ Fails st ∧
        ∃ e, r = .error e) := by
  have herase : ∀ {l a w₁}, Serves F w (.deleteObjects b batch) l a w₁ →
      Erases b (Removes b · ⟨.deleteObjects b batch, l, a, w₁⟩) w w₁ := by
    intro l a w₁ hs
    rw [serves_deleteObjects_eq hs]
    refine (erases_deleteKeys _).congr fun k _ => ?_
    rw [List.mem_filter]
    exact ⟨fun ⟨hk, hl⟩ => ⟨batch, rfl, hk, hl⟩,
      fun ⟨keys, hc, hk, hl⟩ => by cases hc; exact ⟨hk, hl⟩⟩
  unfold deleteOne at h
  rcases exec_bind.1 h with ⟨e, he, rfl⟩ | ⟨resp, tr₁, tr₂, w₁, h₁, h₂, rfl⟩
  · obtain ⟨l, hs, rfl⟩ := exec_request.1 he
    refine ⟨_, rfl, rfl, herase hs, .inr ⟨?_, e, rfl⟩⟩
    cases l with
    | ok => cases hs.2.1
    | perKey errs => cases hs.2.1
    | fail e => trivial
    | lost e => trivial
  · obtain ⟨l, hs, rfl⟩ := exec_request.1 h₁
    have hers := herase hs
    cases l with
    | ok =>
      obtain ⟨-, hresp, -⟩ := hs
      obtain rfl := Except.ok.inj hresp
      obtain ⟨rfl, rfl, rfl⟩ := h₂
      exact ⟨_, rfl, rfl, hers, .inl ⟨id, rfl, fun k hk => ⟨batch, rfl, hk, rfl⟩⟩⟩
    | perKey errs =>
      obtain ⟨-, hresp, -⟩ := hs
      obtain rfl := Except.ok.inj hresp
      -- errors for keys outside the batch do not count
      cases hbad : batch.filter (· ∈ errs) with
      | nil =>
        have hgood : ∀ k ∈ batch, k ∉ errs := by simpa [List.filter_eq_nil_iff] using hbad
        have hall : batch.filter (· ∉ errs) = batch := List.filter_eq_self.2 (by simpa using hgood)
        simp only [hbad, hall] at h₂
        obtain ⟨rfl, rfl, rfl⟩ := h₂
        refine ⟨_, rfl, rfl, hers, .inl ⟨?_, rfl, fun k hk => ⟨batch, rfl, hk, ?_⟩⟩⟩
        · rintro ⟨b', keys, hc, k, hk, hke⟩
          cases hc
          exact hgood k hk hke
        · exact decide_eq_true (hgood k hk)
      | cons k ks =>
        simp only [hbad] at h₂
        obtain ⟨rfl, rfl, rfl⟩ := h₂
        have hk : k ∈ batch.filter (· ∈ errs) := hbad ▸ List.mem_cons_self
        obtain ⟨hkb, hke⟩ := List.mem_filter.1 hk
        exact ⟨_, rfl, rfl, hers, .inr ⟨⟨b, batch, rfl, k, hkb, of_decide_eq_true hke⟩, _, rfl⟩⟩
    | fail e => cases hs.2.1
    | lost e => cases hs.2.1

/-- The loop over the batches: it goes through them in order, up to the first that fails. -/
theorem exec_deleteBatches {batches : List (List Key)}
    (h : Exec (Serves F) (batches.foldlM (deleteOne b) n) w tr r w') :
    tr.map Step.call = (batches.take tr.length).map (.deleteObjects b) ∧
      Erases b (fun k => ∃ st ∈ tr, Removes b k st) w w' ∧
      ((r = .ok (n + batches.flatten.length) ∧ (∀ st ∈ tr, ¬ Fails st) ∧
        ∀ k ∈ batches.flatten, ∃ st ∈ tr, Removes b k st) ∨ FailsLast tr r) := by
  induction batches generalizing n w tr with
  | nil =>
    obtain ⟨rfl, rfl, rfl⟩ := h
    exact ⟨rfl, ⟨rfl, fun _ _ => rfl, by simp⟩, .inl (by simp)⟩
  | cons batch batches ih =>
    rw [List.foldlM_cons, bind_eq] at h
    rcases exec_bind.1 h with ⟨e, he, rfl⟩ | ⟨m, tr₁, tr₂, w₁, h₁, h₂, rfl⟩
    · obtain ⟨st, rfl, hcall, hers, ⟨-, hr, -⟩ | ⟨hf, -⟩⟩ := exec_deleteOne he
      · cases hr
      · refine ⟨by simp [hcall], hers.congr fun k _ => by simp,
          .inr ⟨⟨e, rfl⟩, [], st, rfl, hf, by simp⟩⟩
    · obtain ⟨st, rfl, hcall, hers, ⟨hok, hm, hrm⟩ | ⟨-, e, hr⟩⟩ := exec_deleteOne h₁
      · obtain rfl := Except.ok.inj hm
        obtain ⟨hcalls, hers', hend⟩ := ih h₂
        have hall : Erases b (fun k => ∃ st' ∈ [st] ++ tr₂, Removes b k st') w w' :=
          (hers.trans hers').congr fun k _ => by simp
        refine ⟨by simp [hcall, hcalls], hall, ?_⟩
        rcases hend with ⟨rfl, hnone, hgone⟩ | ⟨hr, before, last, rfl, hlast, hbefore⟩
        · refine .inl ⟨?_, List.forall_mem_cons.2 ⟨hok, hnone⟩, fun k hk => ?_⟩
          · rw [List.flatten_cons, List.length_append, Nat.add_assoc]
          · rw [List.flatten_cons] at hk
            rcases List.mem_append.1 hk with hk | hk
            · exact ⟨st, by simp, hrm k hk⟩
            · obtain ⟨st', hst', hk⟩ := hgone k hk
              exact ⟨st', by simp [hst'], hk⟩
        · exact .inr ⟨hr, st :: before, last, rfl, hlast, List.forall_mem_cons.2 ⟨hok, hbefore⟩⟩
      · cases hr

end Batch

theorem exec_listPrefix_step {uri : Str} {p : ParsedS3Uri} {r : Except PyExc (List Key)}
    (hp : parseS3Uri uri = .ok p) (h : Exec (Serves F) (listPrefix uri) w tr r w') :
    ∃ st, tr = [st] ∧ st.call = .listObjects p.bucket p.key ∧ w' = w ∧
      ((¬ Fails st ∧ r = .ok (((w.s3 p.bucket).under p.key).map Prod.fst)) ∨ Fails st ∧
        ∃ e, r = .error e) := by
  unfold listPrefix at h
  rw [hp, ofExcept_ok, bind_eq, ret_bind, bind_eq] at h
  rcases exec_bind.1 h with ⟨e, he, rfl⟩ | ⟨pages, tr₁, tr₂, w₁, h₁, ⟨rfl, rfl, rfl⟩, rfl⟩
  · obtain ⟨l, hs, rfl⟩ := exec_request.1 he
    obtain ⟨rfl, -⟩ := serves_listObjects hs
    refine ⟨_, rfl, rfl, rfl, .inr ⟨?_, e, rfl⟩⟩
    cases l with
    | ok =>
      obtain ⟨-, -, pages, ha, -⟩ := hs
      cases ha
    | perKey errs => exact hs.2.elim
    | fail e => trivial
    | lost e => trivial
  · obtain ⟨l, hs, rfl⟩ := exec_request.1 h₁
    cases l with
    | ok =>
      obtain ⟨-, rfl, pages', ha, hl⟩ := hs
      obtain rfl := Except.ok.inj ha
      refine ⟨_, rfl, rfl, rfl, .inl ⟨id, ?_⟩⟩
      rw [Pages.collect_eq, hl, List.map_map]
      rfl
    | perKey errs => exact hs.2.elim
    | fail e => cases hs.2.1
    | lost e => cases hs.2.1

theorem requested_map {batches : List (List Key)}
    (h : tr.map Step.call = batches.map (.deleteObjects b)) :
    requested tr = batches.flatten := by
  have hreq : requested tr = (tr.map Step.call).flatMap fun c =>
      ((deleteRequest c).map Prod.snd).getD [] := by
    rw [requested, List.flatMap_map]
  rw [hreq, h, List.flatMap_map]
  exact List.flatMap_id ..

theorem not_removes_of_list {st : Step Call Ans Fate World} {pre k : Key}
    (hc : st.call = .listObjects b pre) :
    ¬ Removes b k st := by
  rintro ⟨keys, hc', -⟩
  rw [hc] at hc'
  cases hc'

/-- The batches of distinct keys: none is long, no key is asked for twice, and all are removed
unless the last batch failed. -/
theorem exec_deleteKeys {keys : List Key} {r : Except PyExc ℕ} (hnd : keys.Nodup)
    (h : Exec (Serves F) ((slices deleteBatch keys).foldlM (deleteOne b) 0) w tr r w') :
    (∀ st ∈ tr, ∃ batch, st.call = .deleteObjects b batch ∧ batch.length ≤ deleteBatch ∧
      batch ⊆ keys) ∧
      (requested tr).Nodup ∧ Erases b (fun k => ∃ st ∈ tr, Removes b k st) w w' ∧
      ((r = .ok keys.length ∧ (∀ st ∈ tr, ¬ Fails st) ∧ ∀ k ∈ keys, ∃ st ∈ tr, Removes b k st) ∨
        FailsLast tr r) := by
  obtain ⟨hcalls, hers, hend⟩ := exec_deleteBatches h
  have hslices := flatten_slices (show 0 < deleteBatch by decide) keys
  rw [hslices, Nat.zero_add] at hend
  refine ⟨fun st hst => ?_, ?_, hers, hend⟩
  · have hm : st.call ∈ ((slices deleteBatch keys).take tr.length).map (.deleteObjects b) :=
      hcalls ▸ List.mem_map_of_mem hst
    obtain ⟨batch, hbatch, hc⟩ := List.mem_map.1 hm
    have hslice := List.mem_of_mem_take hbatch
    exact ⟨batch, hc.symm, length_le_of_mem_slices hslice, fun k hk => mem_of_mem_slices hslice hk⟩
  · have hsub := (List.take_sublist tr.length (slices deleteBatch keys)).flatten
    rw [hslices] at hsub
    rw [requested_map hcalls]
    exact hnd.sublist hsub

/-- What a prefix deletion does to the bucket, however it ends. -/
theorem exec_deletePrefix_erases {uri : Str} {p : ParsedS3Uri} {r : Except PyExc ℕ}
    (hp : parseS3Uri uri = .ok p)
    (h : Exec (Serves F) (deletePrefix uri) w tr r w') :
    Erases p.bucket (fun k => ∃ st ∈ tr, Removes p.bucket k st) w w' ∧
      ∀ st ∈ tr, ∀ k, Removes p.bucket k st → p.key <+: k := by
  have hsame : ∀ st : Step Call Ans Fate World, st.call = .listObjects p.bucket p.key →
      Erases p.bucket (fun k => ∃ st' ∈ [st], Removes p.bucket k st') w w := by
    intro st hcall
    have hno : ∀ k, ¬ Removes p.bucket k st := fun k => not_removes_of_list hcall
    exact ⟨rfl, fun _ _ => rfl, by simp [hno]⟩
  unfold deletePrefix at h
  rw [hp, ofExcept_ok, bind_eq, ret_bind] at h
  by_cases hk : p.key = []
  · rw [if_pos hk] at h
    obtain ⟨rfl, rfl, rfl⟩ := h
    exact ⟨⟨rfl, fun _ _ => rfl, by simp⟩, by simp⟩
  rw [if_neg hk] at h
  have hlisted : (((w.s3 p.bucket).under p.key).map Prod.fst).Nodup :=
    (w.s3 p.bucket).keys_nodup.sublist (List.filter_sublist.map Prod.fst)
  rcases exec_bind.1 h with ⟨e, he, rfl⟩ | ⟨keys, tr₁, tr₂, w₁, h₁, h₂, rfl⟩
  · -- the listing fails
    obtain ⟨st, rfl, hcall, rfl, -⟩ := exec_listPrefix_step hp he
    refine ⟨hsame st hcall, fun st' hst k hrm => ?_⟩
    exact absurd (List.mem_singleton.1 hst ▸ hrm) (not_removes_of_list hcall)
  · obtain ⟨st, rfl, hcall, rfl, ⟨-, hr⟩ | ⟨-, e, hr⟩⟩ := exec_listPrefix_step hp h₁
    swap
    · cases hr
    obtain rfl := Except.ok.inj hr
    obtain ⟨hcalls, -, hers, -⟩ := exec_deleteKeys hlisted h₂
    refine ⟨((hsame st hcall).trans hers).congr fun k _ => by simp, fun st' hst k hrm => ?_⟩
    rcases List.mem_append.1 hst with hst | hst
    · exact absurd (List.mem_singleton.1 hst ▸ hrm) (not_removes_of_list hcall)
    · obtain ⟨keys, hc, hkk, -⟩ := hrm
      obtain ⟨batch, hc', -, hsub⟩ := hcalls st' hst
      cases hc.symm.trans hc'
      exact (Bucket.mem_under_keys.1 (hsub hkk)).2

/-- A deletion that was asked for removes what stands below the prefix or raises: batches of at most
1000 keys, no key twice; it ends normally, with the number of objects removed, exactly when nothing
failed, and nothing follows a failure. -/
theorem deletePrefix_exact {uri : Str} {p : ParsedS3Uri} {r : Except PyExc ℕ}
    (hp : parseS3Uri uri = .ok p)
    (h : Exec (Serves F) (deletePrefix uri) w tr r w') :
    (p.key = [] → tr = [] ∧ w' = w ∧ ∃ e, r = .error e) ∧
    (p.key ≠ [] →
      (∀ st ∈ tr, ∀ b keys, st.call = .deleteObjects b keys → b = p.bucket ∧ keys.length ≤ 1000) ∧
      (requested tr).Nodup ∧
      (∀ n, r = .ok n → Erases p.bucket (p.key <+: ·) w w' ∧
        n = ((w.s3 p.bucket).under p.key).length) ∧
      ((∃ e, r = .error e) ↔ ∃ st ∈ tr, Fails st) ∧
      ((∃ e, r = .error e) → FailsLast tr r ∧
        Erases p.bucket (fun k => ∃ st ∈ tr, Removes p.bucket k st) w w' ∧
        ∀ st ∈ tr, ∀ k, Removes p.bucket k st → p.key <+: k)) := by
  obtain ⟨hers, hbelow⟩ := exec_deletePrefix_erases hp h
  unfold deletePrefix at h
  rw [hp, ofExcept_ok, bind_eq, ret_bind] at h
  constructor
  · intro hk
    rw [if_pos hk] at h
    obtain ⟨rfl, rfl, rfl⟩ := h
    exact ⟨rfl, rfl, _, rfl⟩
  intro hk
  rw [if_neg hk] at h
  have hlisted : (((w.s3 p.bucket).under p.key).map Prod.fst).Nodup :=
    (w.s3 p.bucket).keys_nodup.sublist (List.filter_sublist.map Prod.fst)
  rcases exec_bind.1 h with ⟨e, he, rfl⟩ | ⟨keys, tr₁, tr₂, w₁, h₁, h₂, rfl⟩
  · -- the listing fails: nothing was asked for
    obtain ⟨st, rfl, hcall, rfl, ⟨-, hr⟩ | ⟨hf, -⟩⟩ := exec_listPrefix_step hp he
    · cases hr
    refine ⟨fun st' hst b keys hc => ?_, by simp [requested, hcall, deleteRequest], by simp, ?_,
      fun _ => ?_⟩
    · rw [List.mem_singleton.1 hst, hcall] at hc
      cases hc
    · exact iff_of_true ⟨e, rfl⟩ ⟨st, by simp, hf⟩
    · exact ⟨⟨⟨e, rfl⟩, [], st, rfl, hf, by simp⟩, hers, hbelow⟩
  · obtain ⟨st, rfl, hcall, rfl, ⟨hok, hr⟩ | ⟨-, e, hr⟩⟩ := exec_listPrefix_step hp h₁
    swap
    · cases hr
    obtain rfl := Except.ok.inj hr
    obtain ⟨hcalls, hnd, -, hend⟩ := exec_deleteKeys hlisted h₂
    refine ⟨fun st' hst b ks hc => ?_, by simpa [requested, hcall, deleteRequest] using hnd,
      fun n hn => ?_, ?_,
      fun hr => ?_⟩
    · rcases List.mem_append.1 hst with hst | hst
      · rw [List.mem_singleton.1 hst, hcall] at hc
        cases hc
      · obtain ⟨batch, hc', hlen, -⟩ := hcalls st' hst
        cases hc.symm.trans hc'
        exact ⟨rfl, hlen⟩
    · rcases hend with ⟨hr, -, hgone⟩ | ⟨⟨e, he⟩, -⟩
      swap
      · cases hn.symm.trans he
      refine ⟨hers.congr fun k hkw => ⟨?_, fun hpre => ?_⟩, ?_⟩
      · rintro ⟨st', hst, hrm⟩
        exact hbelow st' hst k hrm
      · obtain ⟨st', hst, hrm⟩ := hgone k (Bucket.mem_under_keys.2 ⟨hkw, hpre⟩)
        exact ⟨st', List.mem_append_right _ hst, hrm⟩
      · rw [Except.ok.inj (hn.symm.trans hr), List.length_map]
    · rcases hend with ⟨hr, hnone, -⟩ | ⟨hr, before, last, rfl, hlast, -⟩
      · refine iff_of_false ?_ ?_
        · rintro ⟨e, he⟩
          cases hr.symm.trans he
        rintro ⟨st', hst, hf⟩
        rcases List.mem_append.1 hst with hst | hst
        · exact hok (List.mem_singleton.1 hst ▸ hf)
        · exact hnone st' hst hf
      · exact iff_of_true hr ⟨last, by simp, hlast⟩
    · rcases hend with ⟨hok', -⟩ | ⟨-, before, last, rfl, hlast, hbefore⟩
      · obtain ⟨e, he⟩ := hr
        cases hok'.symm.trans he
      exact ⟨⟨hr, st :: before, last, rfl, hlast, List.forall_mem_cons.2 ⟨hok, hbefore⟩⟩, hers,
        hbelow⟩

def twoObjects : World := .of ['b'] [['p', '1'], ['q']] [] []

abbrev sampleDeletion : Action ℕ := deletePrefix "s3://b/p".toList

theorem deletePrefix_exact_sample : ∃ (tr : _) (w' : World),
    Exec (Serves fun _ _ => True) sampleDeletion twoObjects tr (.ok 1) w' ∧
    Erases ['b'] (['p'] <+: ·) twoObjects w' := by
  have hp : parseS3Uri "s3://b/p".toList = .ok ⟨['b'], ['p']⟩ := rfl
  have hexec : Exec (Serves fun _ _ => True) sampleDeletion twoObjects _
      (simulate (fun _ => .ok) sampleDeletion twoObjects).2.1 _ :=
        exec_simulate _ _ fun _ _ => trivial
  have hr : (simulate (fun _ => .ok) sampleDeletion twoObjects).2.1 = .ok 1 := by
    have h : (simulate (fun _ => .ok) sampleDeletion twoObjects).2.1.toOption = some 1 := by
      decide +kernel
    cases hout : (simulate (fun _ => .ok) sampleDeletion twoObjects).2.1 with
    | error e =>
      rw [hout] at h
      cases h
    | ok n =>
      rw [hout] at h
      rw [Option.some.inj h]
  rw [hr] at hexec
  obtain ⟨-, hkey⟩ := deletePrefix_exact hp hexec
  obtain ⟨-, -, hok, -⟩ := hkey (by simp)
  exact ⟨_, _, hexec, (hok 1 rfl).1⟩

end Accel.Model
