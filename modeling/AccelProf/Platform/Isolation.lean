import AccelProf.Layout.Addresses
import AccelProf.Layout.Copy
import AccelProf.Platform.Hold
import AccelProf.Store.RoundTrip

/-! Runs next to each other in one bucket: what an operation on one of them reaches, what it leaves
of the others, and where each of them is mounted. -/

namespace Accel.Model
open Data Program Prog

variable {store : Store} {b id : Str} {pre : Key} {cwd : Str} {w w₁ w' : World} {s s' : World × Dir}

/-- A run recorded by `log` under an alias of the documented form, as `resolve` hands it out. -/
structure LoggedRun (store : Store) where
  args : LogArgs
  ref : RunRef
  alias_safe : safeIdBody args.identity.aliasName = true
  id_hex : isRunId ref.runId = true
  returned : Returned store args ref.runId ref

namespace LoggedRun
variable (run : LoggedRun store)

def place : Key := runPrefix run.args.identity.aliasName run.ref.runId

def uri : Str := artifactsUri store.traceBucket.name run.args.identity.aliasName run.ref.runId

theorem livesAt : LivesAt run.ref store.traceBucket.name run.place :=
  livesAt_artifactsUri store.traceBucket run.alias_safe run.id_hex run.returned.artifactsUri

theorem parse_uri : parseS3Uri run.uri = .ok ⟨store.traceBucket.name, run.place⟩ := by
  obtain ⟨hne, hplain⟩ := plain_of_safeIdBody run.alias_safe
  exact parse_artifactsUri hplain (plain_of_isRunId run.id_hex) store.traceBucket hne

theorem uri_ne_nil : run.uri ≠ [] := by
  unfold uri artifactsUri s3Uri
  simp

/-- No key lies below the prefixes of two runs. -/
theorem place_disjoint {run run' : LoggedRun store} {k : Key} (h : run.ref.runId ≠ run'.ref.runId)
    (hk : run.place <+: k) : ¬ run'.place <+: k := by
  rintro ⟨t, ht⟩
  obtain ⟨u, rfl⟩ := hk
  have hslash : ∀ r : LoggedRun store, '/' ∉ r.args.identity.aliasName ∧ '/' ∉ r.ref.runId :=
    fun r =>
    ⟨slash_not_mem_of_plain (plain_of_safeIdBody r.alias_safe).2, not_mem_of_isRunId r.id_hex⟩
  have hinj := runPrefix_append_inj (hslash run).1 (hslash run).2 (hslash run').1
      (hslash run').2 ht.symm
  exact h hinj.2.1

end LoggedRun

section Reach

/-- Calls that reach no object but those below `pre` in bucket `b`, and in MLflow at most run
`id`. -/
def Within (b : Str) (pre : Key) (id : Str) : Call → Prop
  | .listObjects b' pre' => b' = b ∧ pre <+: pre'
  | .deleteObjects b' keys => b' = b ∧ ∀ k ∈ keys, pre <+: k
  | .putObject b' key _ => b' = b ∧ pre <+: key
  | .uploadFile _ b' key _ _ => b' = b ∧ pre <+: key
  | .headObject b' key => b' = b ∧ pre <+: key
  | .sleep _ => True
  | .deleteRun id' => id' = id
  | _ => False

def TransferWithin (b : Str) (pre : Key) (id : Str) : TransferCall → Prop
  | .s3 c => Within b pre id c
  | .makedirs _ => True
  | .downloadFile b' key _ => b' = b ∧ pre <+: key

theorem Within.own {c : Call} (h : Within b pre id c) : OwnCall id c := by
  cases c <;> first | exact h | trivial

/-- Of the objects only those below `pre` in bucket `b` differ, of the runs in MLflow only `id`. -/
structure Spares (b : Str) (pre : Key) (id : Str) (w w' : World) : Prop where
  others : ∀ b', b' ≠ b → w'.s3 b' = w.s3 b'
  keys : ∀ e : Key × Obj, ¬ pre <+: e.1 → (e ∈ (w'.s3 b).entries ↔ e ∈ (w.s3 b).entries)
  runs : ∀ id', id' ≠ id → w'.mlflow.runs id' = w.mlflow.runs id'

theorem Spares.refl (w : World) : Spares b pre id w w :=
  ⟨fun _ _ => rfl, fun _ _ => Iff.rfl, fun _ _ => rfl⟩

theorem Spares.trans (h : Spares b pre id w w₁) (h' : Spares b pre id w₁ w') :
    Spares b pre id w w' where
  others := fun b' hb => (h'.others b' hb).trans (h.others b' hb)
  keys := fun e he => (h'.keys e he).trans (h.keys e he)
  runs := fun id' hid => (h'.runs id' hid).trans (h.runs id' hid)

/-- The objects that a call within a prefix can change. -/
theorem within_objects {F : Call → Fate → Prop} {c : Call} {l : Fate} {a : Ans c}
    (hc : Within b pre id c)
    (h : Serves F w c l a w') : w'.s3 = w.s3 ∨ Touches b (pre <+: ·) w w' := by
  rcases h.effect with rfl | ⟨a', h⟩ | ⟨errs, h⟩
  · exact .inl rfl
  · cases c with
    | deleteObjects b' keys =>
      obtain ⟨rfl, hk⟩ := hc
      obtain ⟨-, rfl⟩ := h
      exact .inr (touches_deleteKeys hk)
    | putObject b' key body =>
      obtain ⟨rfl, hk⟩ := hc
      obtain ⟨-, t, rfl⟩ := h
      exact .inr (touches_put hk)
    | uploadFile path b' key body hex =>
      obtain ⟨rfl, hk⟩ := hc
      obtain ⟨-, t, rfl⟩ := h
      exact .inr (touches_put hk)
    | listObjects b' pre' => exact .inl (by rw [h.1])
    | headObject b' key => exact .inl (by rw [h.1])
    | sleep t => exact .inl (by rw [h.2])
    | deleteRun id' =>
      have hw : WritesRun w id' Run.setDeleted a' w' := h
      unfold WritesRun at hw
      split at hw
      · exact .inl (by rw [hw.2])
      · exact .inl (by rw [hw.2]; rfl)
    | _ => exact hc.elim
  · cases c with
    | deleteObjects b' keys =>
      obtain ⟨rfl, hk⟩ := hc
      obtain ⟨-, rfl⟩ := h
      exact .inr (touches_deleteKeys fun k hm => hk k (List.mem_of_mem_filter hm))
    | _ => exact h.elim

theorem spares_of_within {F : Call → Fate → Prop} {c : Call} {l : Fate} {a : Ans c}
    (hc : Within b pre id c) (h : Serves F w c l a w') : Spares b pre id w w' := by
  have hruns : ∀ id', id' ≠ id → w'.mlflow.runs id' = w.mlflow.runs id' := fun _ hne =>
    h.mlflowStep.other hc.own hne
  rcases within_objects hc h with hs | ht
  · exact ⟨fun b' _ => by rw [hs], fun e _ => by rw [hs], hruns⟩
  · exact ⟨ht.others, ht.keys, hruns⟩

theorem spares_of_transfer {F : TransferCall → Fate → Prop} {c : TransferCall} {l : Fate}
    {a : TransferAns c} (hc : TransferWithin b pre id c) (h : Serving cwd F s c l a s') :
    Spares b pre id s.1 s'.1 := by
  cases c with
  | s3 c => exact spares_of_within hc h.1
  | makedirs p =>
    have hw : s'.1 = s.1 := h.2.1
    rw [hw]
    exact .refl s.1
  | downloadFile b' key p =>
    have hw : s'.1 = s.1 := h.2.1
    rw [hw]
    exact .refl s.1

end Reach

section Calls
variable {F : Call → Fate → Prop} {tr : List (Step Call Ans Fate World)} {uri : Str}

theorem uses_listPrefix (hp : parseS3Uri uri = .ok ⟨b, pre⟩) :
    (listPrefix uri).Uses (Within b pre id) := by
  unfold listPrefix
  rw [hp]
  exact (uses_request ⟨rfl, List.prefix_rfl⟩).bind fun _ => trivial

theorem exec_listPrefix_keys {keys : List Key} (hp : parseS3Uri uri = .ok ⟨b, pre⟩)
    (h : Exec (Serves F) (listPrefix uri) w tr (.ok keys) w') : ∀ k ∈ keys, pre <+: k := by
  obtain ⟨-, hk | ⟨-, e, he⟩⟩ := exec_listPrefix hp h
  · obtain rfl := Except.ok.inj hk
    exact fun k hm => (Bucket.mem_under_keys.1 hm).2
  · cases he

/-- A prefix deletion deletes nothing but what its listing showed. -/
theorem exec_deletePrefix_within {r : Except PyExc ℕ} (hp : parseS3Uri uri = .ok ⟨b, pre⟩)
    (h : Exec (Serves F) (deletePrefix uri) w tr r w') : ∀ st ∈ tr, Within b pre id st.call := by
  unfold deletePrefix at h
  rw [hp, ofExcept_ok, bind_eq, ret_bind] at h
  split_ifs at h
  · obtain ⟨rfl, -⟩ := h
    simp
  rcases exec_bind.1 h with ⟨e, he, -⟩ | ⟨keys, tr₁, tr₂, w₁, h₁, h₂, rfl⟩
  · exact (uses_listPrefix hp).calls he
  have hkeys := exec_listPrefix_keys hp h₁
  have hloop : ((slices deleteBatch keys).foldlM (deleteOne b) 0).Uses (Within b pre id) := by
    refine uses_foldlM (fun n batch hbatch => ?_) 0
    have hcall : Within b pre id (.deleteObjects b batch) :=
      ⟨rfl, fun k hk => hkeys k (mem_of_mem_slices hbatch hk)⟩
    refine (uses_request hcall).bind fun resp => ?_
    cases resp.errors <;> trivial
  intro st hst
  rcases List.mem_append.1 hst with hst | hst
  · exact (uses_listPrefix hp).calls h₁ st hst
  · exact hloop.calls h₂ st hst

theorem exec_purge_within {run : LoggedRun store} {flag : Bool} {r : Except PyExc ℕ}
    (h : Exec (Serves F) (purge run.ref flag) w tr r w') :
    ∀ st ∈ tr, Within store.traceBucket.name run.place run.ref.runId st.call := by
  have hdel : (deleteRun run.ref.runId).Uses
      (Within store.traceBucket.name run.place run.ref.runId) := by
    have hreq : (request (.deleteRun run.ref.runId)).Uses
        (Within store.traceBucket.name run.place run.ref.runId) := uses_request rfl
    refine hreq.attempt.bind fun out => ?_
    cases out with
    | ok u => trivial
    | error e => exact uses_ite trivial trivial
  unfold purge at h
  rw [run.returned.artifactsUri] at h
  simp only [show artifactsUri store.traceBucket.name run.args.identity.aliasName run.ref.runId =
    run.uri from rfl, if_neg run.uri_ne_nil] at h
  rcases exec_bind.1 h with ⟨e, he, -⟩ | ⟨deleted, tr₁, tr₂, w₁, h₁, h₂, rfl⟩
  · exact exec_deletePrefix_within run.parse_uri he
  have hrest : ∀ st ∈ tr₂, Within store.traceBucket.name run.place run.ref.runId st.call := by
    cases flag with
    | true =>
      have huses : ((deleteRun run.ref.runId).bind fun _ => (ret deleted : Action ℕ)).Uses
          (Within store.traceBucket.name run.place run.ref.runId) := hdel.bind fun _ => trivial
      exact huses.calls h₂
    | false =>
      obtain ⟨rfl, -⟩ := h₂
      simp
  intro st hst
  rcases List.mem_append.1 hst with hst | hst
  · exact exec_deletePrefix_within run.parse_uri h₁ st hst
  · exact hrest st hst

theorem uses_hold (run : LoggedRun store) :
    (hold run.ref).Uses (Within store.traceBucket.name run.place id) := by
  rw [run.livesAt.hold_eq]
  exact (uses_request ⟨rfl, List.prefix_append _ _⟩).bind fun _ => trivial

theorem uses_upload (run : LoggedRun store) (fs : LocalFs) (artifacts : Option (List Str)) :
    (uploadArtifacts fs store.traceBucket.name run.args.identity.aliasName run.ref.runId
      artifacts).Uses
      (Within store.traceBucket.name run.place id) :=
  uses_uploadArtifacts_of fs _ _ _ artifacts (fun _ _ _ _ h => ⟨rfl, h⟩) (fun _ h => ⟨rfl, h⟩)
    fun _ => trivial

end Calls

section Transfers
variable {F : TransferCall → Fate → Prop}
  {tr : List (Step TransferCall TransferAns Fate (World × Dir))}

theorem exec_asTransfer_within {α : Type} {p : Action α} {r : Except PyExc α}
    (hp : ∀ {w tr r w'}, Exec (Serves fun c => F (.s3 c)) p w tr r w' →
      ∀ st ∈ tr, Within b pre id st.call)
    (h : Exec (Serving cwd F) (asTransfer p) s tr r s') :
    ∀ st ∈ tr, TransferWithin b pre id st.call := by
  obtain ⟨-, tr', h', hcalls⟩ := exec_asTransfer h
  intro st hst
  have hm : st.call ∈ tr.map Step.call := List.mem_map_of_mem hst
  rw [hcalls] at hm
  obtain ⟨st', hst', hc⟩ := List.mem_map.1 hm
  rw [← hc]
  exact hp h' st' hst'

theorem exec_downloadPrefix_within {uri destDir : Str} {r : Except PyExc (List Str)}
    (hp : parseS3Uri uri = .ok ⟨b, pre⟩)
    (h : Exec (Serving cwd F) (downloadPrefix cwd uri destDir) s tr r s') :
    ∀ st ∈ tr, TransferWithin b pre id st.call := by
  have hlist : ∀ {tr r s'}, Exec (Serving cwd F) (asTransfer (listPrefix uri)) s tr r s' →
      ∀ st ∈ tr, TransferWithin b pre id st.call := fun hx =>
    exec_asTransfer_within (fun hy => (uses_listPrefix hp).calls hy) hx
  unfold downloadPrefix at h
  rw [hp, ofExcept_ok, bind_eq, ret_bind, bind_eq] at h
  rcases exec_bind.1 h with ⟨e, he, -⟩ | ⟨keys, tr₁, tr₂, s₁, h₁, h₂, rfl⟩
  · exact hlist he
  have hkeys : ∀ k ∈ keys, pre <+: k := by
    obtain ⟨-, tr', h', -⟩ := exec_asTransfer h₁
    exact exec_listPrefix_keys hp h'
  have hloop : (keys.foldlM (downloadKey cwd ⟨b, pre⟩ (realpath cwd destDir)) []).Uses
      (TransferWithin b pre id) := by
    refine uses_foldlM (fun written key hkey => ?_) []
    have hcall : ∀ p, TransferWithin b pre id (.downloadFile b key p) :=
      fun p => ⟨rfl, hkeys key hkey⟩
    unfold downloadKey
    simp only
    split_ifs
    · trivial
    · trivial
    · exact (uses_perform trivial).bind fun _ => (uses_perform (hcall _)).bind fun _ => trivial
    · exact (uses_perform trivial).bind fun _ => (uses_perform (hcall _)).bind fun _ => trivial
  intro st hst
  rcases List.mem_append.1 hst with hst | hst
  · exact hlist h₁ st hst
  · exact hloop.calls h₂ st hst

theorem exec_download_within {run : LoggedRun store} {destDir : Str} {r : Except PyExc (List Str)}
    (h : Exec (Serving cwd F) (download cwd run.ref destDir) s tr r s') :
    ∀ st ∈ tr, TransferWithin store.traceBucket.name run.place run.ref.runId st.call := by
  have huri : run.ref.artifactsUri.getD [] = run.uri := by
    rw [run.returned.artifactsUri]
    rfl
  have hmake : ∀ {tr r s'}, Exec (Serving cwd F) (transfer (.makedirs destDir)) s tr r s' →
      ∀ st ∈ tr, TransferWithin store.traceBucket.name run.place run.ref.runId st.call := by
    intro tr r s' hx
    have huses : (transfer (.makedirs destDir)).Uses
        (TransferWithin store.traceBucket.name run.place run.ref.runId) := uses_perform trivial
    exact huses.calls hx
  unfold download at h
  simp only [huri, if_neg run.uri_ne_nil] at h
  rcases exec_bind.1 h with ⟨e, he, -⟩ | ⟨u, tr₁, tr₂, s₁, h₁, h₂, rfl⟩
  · exact hmake he
  intro st hst
  rcases List.mem_append.1 hst with hst | hst
  · exact hmake h₁ st hst
  · exact exec_downloadPrefix_within run.parse_uri h₂ st hst

end Transfers

section Mount

theorem isName_of_safeIdBody {a : Str} (h : safeIdBody a = true) : IsName a := by
  obtain ⟨c, t, rfl, hc, -⟩ := safeIdBody_iff.1 h
  have hdot : c ≠ '.' := by
    rintro rfl
    exact absurd hc (by decide)
  exact ⟨by simp, by simp [dot, hdot], by simp [dotDot, hdot],
    slash_not_mem_of_plain (plain_of_safeIdBody h).2⟩

theorem isName_of_isRunId {a : Str} (h : isRunId a = true) : IsName a := by
  have hlen := (isRunId_iff.1 h).1
  refine ⟨isRunId_ne_nil h, ?_, ?_, not_mem_of_isRunId h⟩
  · rintro rfl
    cases hlen
  · rintro rfl
    cases hlen

theorem foldl_runPrefix {a c : Str} (ha : IsName a) (hc : IsName c) (start : List Str) :
    ((runPrefix a c).splitOn '/').foldl (normStep true) start = start ++ [a, c] := by
  have hsplit : runPrefix a c = a ++ '/' :: (c ++ '/' :: []) := by simp [runPrefix]
  rw [hsplit, foldl_split_append, foldl_split_append, List.splitOn_eq_singleton ha.slash_not_mem,
    List.splitOn_eq_singleton hc.slash_not_mem, List.splitOn_nil]
  simp only [List.foldl_cons, List.foldl_nil, normStep_name ha, normStep_name hc, normStep_nil,
    List.append_assoc, List.cons_append, List.nil_append]

theorem locate_components {run : LoggedRun store} {dir : Str} (h : locate store run.ref = .ok dir)
    (cwd : Str) : ∃ mount, store.mountBase = some mount ∧
      realComponents cwd dir = realComponents cwd mount ++
        [run.args.identity.aliasName, run.ref.runId] := by
  have ha := isName_of_safeIdBody run.alias_safe
  have hid := isName_of_isRunId run.id_hex
  have huri : run.ref.artifactsUri.getD [] = run.uri := by
    rw [run.returned.artifactsUri]
    rfl
  unfold locate localDirForMount at h
  simp only [huri, run.uri_ne_nil, run.parse_uri, if_false, ne_eq, not_true_eq_false] at h
  cases hm : store.mountBase with
  | none =>
    rw [hm] at h
    cases h
  | some mount =>
    rw [hm, Option.getD_some] at h
    split_ifs at h with hne
    obtain rfl := Except.ok.inj h
    have hhead : run.place.head? ≠ some '/' := by
      have hsplit : run.place = run.args.identity.aliasName ++ ('/' :: run.ref.runId ++ ['/']) := by
        simp [LoggedRun.place, runPrefix]
      rw [hsplit, List.head?_append_of_ne_nil _ ha.ne_nil]
      exact ha.head_ne
    refine ⟨mount, rfl, ?_⟩
    rw [realComponents_pathJoin cwd hne hhead]
    exact foldl_runPrefix ha hid _

/-- With a mount, every run is located. -/
theorem locate_exists {mount : Str} (hm : store.mountBase = some mount) (hne : mount ≠ [])
    (run : LoggedRun store) : ∃ dir, locate store run.ref = .ok dir := by
  have huri : run.ref.artifactsUri.getD [] = run.uri := by
    rw [run.returned.artifactsUri]
    rfl
  refine ⟨pathJoin mount run.place, ?_⟩
  unfold locate localDirForMount
  simp only [hm, huri, Option.getD_some, hne, run.uri_ne_nil, run.parse_uri, if_false, ne_eq,
    not_true_eq_false]

/-- No located directory is, or lies inside, that of another run. -/
theorem locate_apart {run run' : LoggedRun store} {dir dir' : Str}
    (hne : run.ref.runId ≠ run'.ref.runId)
    (h : locate store run.ref = .ok dir) (h' : locate store run'.ref = .ok dir') (cwd : Str) :
    ¬ realComponents cwd dir <+: realComponents cwd dir' := by
  obtain ⟨mount, hm, hdir⟩ := locate_components h cwd
  obtain ⟨mount', hm', hdir'⟩ := locate_components h' cwd
  obtain rfl := Option.some.inj (hm.symm.trans hm')
  intro hpre
  rw [hdir, hdir', List.prefix_append_right_inj] at hpre
  have heq := hpre.eq_of_length rfl
  exact hne (List.cons.inj (List.cons.inj heq).2).1

end Mount

/-- An operation on a run, with what the caller chooses. -/
inductive RunOp where
  | upload (fs : LocalFs) (artifacts : Option (List Str))
  | hold
  | download (destDir : Str)
  | listPrefix
  | deletePrefix
  | purge (deleteMlflowRun : Bool)

def RunOp.program (cwd : Str) (run : LoggedRun store) : RunOp → Transfer Unit
  | .upload fs artifacts => (asTransfer (uploadArtifacts fs store.traceBucket.name
      run.args.identity.aliasName run.ref.runId artifacts)).bind fun _ => ret ()
  | .hold => (asTransfer (Model.hold run.ref)).bind fun _ => ret ()
  | .download destDir => (Model.download cwd run.ref destDir).bind fun _ => ret ()
  | .listPrefix => (asTransfer (Model.listPrefix run.uri)).bind fun _ => ret ()
  | .deletePrefix => (asTransfer (Model.deletePrefix run.uri)).bind fun _ => ret ()
  | .purge flag => (asTransfer (Model.purge run.ref flag)).bind fun _ => ret ()

section Operations
variable {F : TransferCall → Fate → Prop}
  {tr : List (Step TransferCall TransferAns Fate (World × Dir))}

theorem exec_drop {α : Type} {p : Transfer α} {r : Except PyExc Unit}
    (h : Exec (Serving cwd F) (p.bind fun _ => ret ()) s tr r s') :
    ∃ r', Exec (Serving cwd F) p s tr r' s' := by
  rcases exec_bind.1 h with ⟨e, he, -⟩ | ⟨a, tr₁, tr₂, s₁, h₁, ⟨rfl, -, rfl⟩, rfl⟩
  · exact ⟨_, he⟩
  · exact ⟨.ok a, by rwa [List.append_nil]⟩

/-- An operation on a run stays within the run. -/
theorem exec_runOp_within {run : LoggedRun store} {op : RunOp} {r : Except PyExc Unit}
    (h : Exec (Serving cwd F) (op.program cwd run) s tr r s') :
    ∀ st ∈ tr, TransferWithin store.traceBucket.name run.place run.ref.runId st.call := by
  cases op with
  | upload fs artifacts =>
    obtain ⟨r', h⟩ := exec_drop h
    exact exec_asTransfer_within (fun hx => (uses_upload run fs artifacts).calls hx) h
  | hold =>
    obtain ⟨r', h⟩ := exec_drop h
    exact exec_asTransfer_within (fun hx => (uses_hold run).calls hx) h
  | download destDir =>
    obtain ⟨r', h⟩ := exec_drop h
    exact exec_download_within h
  | listPrefix =>
    obtain ⟨r', h⟩ := exec_drop h
    exact exec_asTransfer_within (fun hx => (uses_listPrefix run.parse_uri).calls hx) h
  | deletePrefix =>
    obtain ⟨r', h⟩ := exec_drop h
    exact exec_asTransfer_within (fun hx => exec_deletePrefix_within run.parse_uri hx) h
  | purge flag =>
    obtain ⟨r', h⟩ := exec_drop h
    exact exec_asTransfer_within (fun hx => exec_purge_within hx) h

/-- The run's objects, what a sweep makes of them, and its record are the same. -/
structure Unchanged (run : LoggedRun store) (w w' : World) : Prop where
  objects : (w'.s3 store.traceBucket.name).under run.place =
    (w.s3 store.traceBucket.name).under run.place
  held : (w'.s3 store.traceBucket.name).marked run.place =
    (w.s3 store.traceBucket.name).marked run.place
  scan : (w'.s3 store.traceBucket.name).scanOf run.place =
    (w.s3 store.traceBucket.name).scanOf run.place
  record : w'.mlflow.runs run.ref.runId = w.mlflow.runs run.ref.runId

theorem Unchanged.refl (run : LoggedRun store) (w : World) : Unchanged run w w :=
    ⟨rfl, rfl, rfl, rfl⟩

theorem Unchanged.trans {run : LoggedRun store} (h : Unchanged run w w₁)
    (h' : Unchanged run w₁ w') :
    Unchanged run w w' where
  objects := h'.objects.trans h.objects
  held := h'.held.trans h.held
  scan := h'.scan.trans h.scan
  record := h'.record.trans h.record

theorem Bucket.under_congr {m m' : Bucket}
    (h : ∀ e : Key × Obj, pre <+: e.1 → (e ∈ m'.entries ↔ e ∈ m.entries)) :
    m'.under pre = m.under pre := by
  have hsorted : ∀ m : Bucket, (m.under pre).Pairwise fun x y => x.1 < y.1 :=
    fun m => m.sorted.filter _
  have : Std.Irrefl fun x y : Key × Obj => x.1 < y.1 := ⟨fun x => lt_irrefl x.1⟩
  refine (hsorted m').eq_of_mem_iff (hsorted m) fun e => ?_
  rw [Bucket.mem_under, Bucket.mem_under]
  constructor
  · exact fun ⟨he, hp⟩ => ⟨(h e hp).1 he, hp⟩
  · exact fun ⟨he, hp⟩ => ⟨(h e hp).2 he, hp⟩

/-- What stays within one run spares every other. -/
theorem Spares.unchanged {run run' : LoggedRun store} (hne : run'.ref.runId ≠ run.ref.runId)
    (h : Spares store.traceBucket.name run.place run.ref.runId w w') : Unchanged run' w w' := by
  have hobj : (w'.s3 store.traceBucket.name).under run'.place =
      (w.s3 store.traceBucket.name).under run'.place :=
    Bucket.under_congr fun e he => h.keys e (LoggedRun.place_disjoint hne he)
  refine ⟨hobj, ?_, ?_, h.runs _ hne⟩
  · unfold Bucket.marked
    rw [hobj]
  · unfold Bucket.scanOf
    rw [hobj]

theorem exec_runOp_spares {run : LoggedRun store} {op : RunOp} {r : Except PyExc Unit}
    (h : Exec (Serving cwd F) (op.program cwd run) s tr r s') :
    Spares store.traceBucket.name run.place run.ref.runId s.1 s'.1 ∧
      ∀ st ∈ tr, Spares store.traceBucket.name run.place run.ref.runId s.1 st.after.1 :=
  h.of_calls (P := fun t => Spares store.traceBucket.name run.place run.ref.runId s.1 t.1)
    (fun _ _ _ _ _ hc ht hs => ht.trans (spares_of_transfer hc hs)) (exec_runOp_within h)
      (.refl s.1)

end Operations

/-- One operation of a session: on which run, from where, and what it did. -/
structure Performed (ι : Type) where
  run : ι
  op : RunOp
  before : World × Dir
  trace : List (Step TransferCall TransferAns Fate (World × Dir))
  after : World × Dir

variable {ι : Type}

/-- Operations on the runs, one after another, whatever happens to each. -/
inductive Session (cwd : Str) (F : TransferCall → Fate → Prop) (runs : ι → LoggedRun store) :
    World × Dir → List (Performed ι) → World × Dir → Prop
  | nil (s : World × Dir) : Session cwd F runs s [] s
  | snoc {s s₁ s₂ : World × Dir} {done : List (Performed ι)} {i : ι} {op : RunOp}
      {tr : List (Step TransferCall TransferAns Fate (World × Dir))} {r : Except PyExc Unit}
      (h : Session cwd F runs s done s₁)
      (hop : Exec (Serving cwd F) (op.program cwd (runs i)) s₁ tr r s₂) :
      Session cwd F runs s (done ++ [⟨i, op, s₁, tr, s₂⟩]) s₂

/-- An operation reached nothing but its run, and every other run was the same throughout. -/
structure Confined (runs : ι → LoggedRun store) (p : Performed ι) : Prop where
  calls : ∀ st ∈ p.trace,
    TransferWithin store.traceBucket.name (runs p.run).place (runs p.run).ref.runId st.call
  others : ∀ j, j ≠ p.run → Unchanged (runs j) p.before.1 p.after.1 ∧
    ∀ st ∈ p.trace, Unchanged (runs j) p.before.1 st.after.1

/-- Each operation reaches only its own run, a run changes only by operations on it, and no run is
mounted at or inside the place of another. -/
structure Isolated (cwd : Str) (runs : ι → LoggedRun store) (s : World × Dir)
    (done : List (Performed ι))
    (s' : World × Dir) : Prop where
  confined : ∀ p ∈ done, Confined runs p
  unchanged : ∀ j, (∀ p ∈ done, p.run ≠ j) → Unchanged (runs j) s.1 s'.1
  apart : ∀ i j, i ≠ j → ∀ dir dir', locate store (runs i).ref = .ok dir →
    locate store (runs j).ref = .ok dir' → ¬ realComponents cwd dir <+: realComponents cwd dir'

section Session
variable {F : TransferCall → Fate → Prop} {runs : ι → LoggedRun store} {done : List (Performed ι)}
  (hids : Function.Injective fun i => (runs i).ref.runId)
include hids

theorem confined_of_exec {i : ι} {op : RunOp} {r : Except PyExc Unit}
    {tr : List (Step TransferCall TransferAns Fate (World × Dir))}
    (h : Exec (Serving cwd F) (op.program cwd (runs i)) s tr r s') :
    Confined runs ⟨i, op, s, tr, s'⟩ where
  calls := exec_runOp_within h
  others := by
    intro j hj
    have hne : (runs j).ref.runId ≠ (runs i).ref.runId := fun he => hj (hids he)
    obtain ⟨hend, hall⟩ := exec_runOp_spares h
    exact ⟨hend.unchanged hne, fun st hst => (hall st hst).unchanged hne⟩

theorem Session.confined (h : Session cwd F runs s done s') : ∀ p ∈ done, Confined runs p := by
  induction h with
  | nil => simp
  | snoc h hop ih =>
    intro p hp
    rcases List.mem_append.1 hp with hp | hp
    · exact ih p hp
    · rw [List.mem_singleton.1 hp]
      exact confined_of_exec hids hop

/-- A run that no operation was on is as it was. -/
theorem Session.unchanged {j : ι} (h : Session cwd F runs s done s') (hj : ∀ p ∈ done, p.run ≠ j) :
    Unchanged (runs j) s.1 s'.1 := by
  induction h with
  | nil => exact .refl _ _
  | snoc h hop ih =>
    have hlast := (confined_of_exec hids hop).others j (hj _ (by simp)).symm
    exact (ih fun p hp => hj p (by simp [hp])).trans hlast.1

/-- Runs with different ids are isolated, whatever their aliases, the operations and their fates. -/
theorem runs_isolated (h : Session cwd F runs s done s') : Isolated cwd runs s done s' where
  confined := h.confined hids
  unchanged := fun _ hj => h.unchanged hids hj
  apart := by
    intro i j hij dir dir' hi hj
    have hne : (runs i).ref.runId ≠ (runs j).ref.runId := fun he => hij (hids he)
    exact locate_apart hne hi hj cwd

end Session

section Sample

def sampleArgsOf (a : Str) : LogArgs :=
  { sampleArgs with identity := { sampleArgs.identity with aliasName := a } }

def sampleLogged (a : Str) (c : Char) (ha : safeIdBody a = true)
    (hc : isRunId (sampleRunId c) = true) :
    LoggedRun mountedStore where
  args := sampleArgsOf a
  ref := toRef (sampleRunId c, ((sampleArgsOf a).record mountedStore (sampleRunId c) (newRun []
    (creationTags (sampleArgsOf a).identity) (runName (sampleArgsOf a).identity) none)).setStatus
      .finished)
  alias_safe := ha
  id_hex := hc
  returned := returned_of_record (sampleRunId c) [] none rfl

/-- Two runs, one under an alias that is the other's id. -/
def sampleRuns : Bool → LoggedRun mountedStore
  | false => sampleLogged ['a'] '0' (by decide) (by decide)
  | true => sampleLogged (sampleRunId '0') '1' (by decide) (by decide)

theorem sampleRuns_injective : Function.Injective fun i => (sampleRuns i).ref.runId := by
  have hne : sampleRunId '0' ≠ sampleRunId '1' := by decide
  intro i j hij
  cases i <;> cases j
  · rfl
  · exact absurd hij hne
  · exact absurd hij.symm hne
  · rfl

/-- The first run has an object. -/
def besideObject : World := .of ['b'] [sampleArtifact] [] []

def performed (i : Bool) (op : RunOp) (s : World × Dir) : Performed Bool :=
  let out := run (serveTransfer ['/']) (op.program ['/'] (sampleRuns i)) s
  ⟨i, op, s, out.1, out.2.2⟩

theorem Session.performed {s s' : World × Dir} {done : List (Performed Bool)}
    (h : Session ['/'] (fun _ _ => True) sampleRuns s done s') (i : Bool) (op : RunOp) :
    Session ['/'] (fun _ _ => True) sampleRuns s (done ++ [performed i op s'])
      (performed i op s').after :=
  h.snoc (exec_run (serving_serveTransfer ['/']))

/-- An upload of three files to the second run. -/
def uploadBeside : Performed Bool :=
  performed true (.upload sampleMachine.toLocalFs (some ["/t".toList])) (besideObject, sampleDisk)

/-- Its deletion afterwards. -/
def deletionBeside : Performed Bool := performed true .deletePrefix uploadBeside.after

theorem session_beside : Session ['/'] (fun _ _ => True) sampleRuns (besideObject, sampleDisk)
    [uploadBeside, deletionBeside] deletionBeside.after :=
  ((Session.nil (besideObject, sampleDisk)).performed true
    (.upload sampleMachine.toLocalFs (some ["/t".toList]))).performed true .deletePrefix

end Sample

/-- The second run gets three objects and loses them again, and the first keeps its own. -/
theorem runs_isolated_sample : ∃ done s',
    Session ['/'] (fun _ _ => True) sampleRuns (besideObject, sampleDisk) done s' ∧
    Isolated ['/'] sampleRuns (besideObject, sampleDisk) done s' ∧
    done.map (fun p => ((p.after.1.s3 ['b']).under (sampleRuns true).place).length) = [3, 0] ∧
    ((s'.1.s3 ['b']).under (sampleRuns false).place).map Prod.fst = [sampleArtifact] :=
  ⟨[uploadBeside, deletionBeside], deletionBeside.after, session_beside,
    runs_isolated sampleRuns_injective session_beside, by decide +kernel, by decide +kernel⟩

end Accel.Model
