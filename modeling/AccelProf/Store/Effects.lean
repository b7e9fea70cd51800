import AccelProf.Data.Fallible
import AccelProf.Spec.Deletion
import AccelProf.Model.RunPrefix
import AccelProf.Model.Store

/-! What the calls of `log` do to the two stores: uploads touch the planned keys, records touch one
run. -/

namespace Accel.Model
open Data Program Prog

variable {F : Call → Fate → Prop} {w w' w₁ : World} {tr : List (Step Call Ans Fate World)}
  {b id : Str} {S : Key → Prop}

/-- Only objects of bucket `b` whose keys satisfy `S` differ. -/
structure Touches (b : Str) (S : Key → Prop) (w w' : World) : Prop where
  mlflow : w'.mlflow = w.mlflow
  others : ∀ b', b' ≠ b → w'.s3 b' = w.s3 b'
  keys : ∀ e : Key × Obj, ¬ S e.1 → (e ∈ (w'.s3 b).entries ↔ e ∈ (w.s3 b).entries)

theorem Touches.refl (w : World) : Touches b S w w := ⟨rfl, fun _ _ => rfl, fun _ _ => Iff.rfl⟩

theorem Touches.trans (h : Touches b S w w₁) (h' : Touches b S w₁ w') : Touches b S w w' where
  mlflow := h'.mlflow.trans h.mlflow
  others := fun b' hb => (h'.others b' hb).trans (h.others b' hb)
  keys := fun e he => (h'.keys e he).trans (h.keys e he)

theorem Touches.mono {S' : Key → Prop} (h : Touches b S w w') (hS : ∀ k, S k → S' k) :
    Touches b S' w w' :=
  ⟨h.mlflow, h.others, fun e he => h.keys e fun hs => he (hS _ hs)⟩

theorem touches_put {key : Key} {obj : Obj} (hS : S key) :
    Touches b S w (w.setBucket b ((w.s3 b).put key obj)) := by
  refine ⟨rfl, fun b' hb => World.setBucket_s3_ne hb, fun e he => ?_⟩
  rw [World.setBucket_s3_self, SortedMap.mem_put_entries]
  have hne : e.1 ≠ key := fun h => he (h ▸ hS)
  exact ⟨fun h => h.elim (fun h => absurd (congrArg Prod.fst h) hne) And.left,
    fun h => .inr ⟨h, hne⟩⟩

theorem touches_deleteKeys {keys : List Key} (hS : ∀ k ∈ keys, S k) :
    Touches b S w (w.deleteKeys b keys) := by
  refine ⟨rfl, fun b' hb => World.setBucket_s3_ne hb, fun e he => ?_⟩
  rw [World.deleteKeys_s3_self, SortedMap.mem_restrict_entries, decide_eq_true_iff]
  exact and_iff_left fun h => he (hS _ h)

def UploadCall (b : Str) (S : Key → Prop) : Call → Prop
  | .uploadFile _ b' key _ _ => b' = b ∧ S key
  | .headObject .. => True
  | .sleep _ => True
  | _ => False

/-- Whatever its fate, a call does nothing or has its effect, a batch delete perhaps a part of
it. -/
theorem Serves.effect {c : Call} {l : Fate} {a : Ans c} (h : Serves F w c l a w') :
    w' = w ∨ (∃ a', Handle w c a' w') ∨ ∃ errs, PartialDelete w errs c a w' := by
  obtain ⟨-, h⟩ := h
  cases l with
  | ok => exact .inr (.inl ⟨a, h⟩)
  | perKey errs => exact .inr (.inr ⟨errs, h⟩)
  | fail e => exact .inl h.2
  | lost e => exact .inr (.inl h.2)

theorem touches_uploadCall {c : Call} {l : Fate} {a : Ans c} (hc : UploadCall b S c)
    (h : Serves F w c l a w') : Touches b S w w' := by
  rcases h.effect with rfl | ⟨a', h⟩ | ⟨errs, h⟩
  · exact .refl w'
  · cases c with
    | uploadFile path b' key' body hex =>
      obtain ⟨rfl, hS⟩ := hc
      obtain ⟨-, t, rfl⟩ := h
      exact touches_put hS
    | headObject b' key' =>
      obtain ⟨rfl, -⟩ := h
      exact .refl w'
    | sleep t =>
      obtain ⟨-, rfl⟩ := h
      exact .refl w'
    | _ => exact hc.elim
  · cases c <;> first | exact h.elim | exact hc.elim

section Uses
variable {P : Call → Prop} {fs : LocalFs} {path : Str} {key : Key}
  (hsend : ∀ hex, P (.uploadFile path b key (fs.read path) hex)) (hhead : P (.headObject b key))
include hsend hhead

theorem uses_uploadOnce : (uploadOnce fs path b key).Uses P := by
  refine (uses_request (hsend _)).bind fun _ => ?_
  refine (uses_request hhead).bind fun head => ?_
  cases head.checksumSHA256 with
  | none => simp only; split_ifs <;> trivial
  | some remote => simp only; split_ifs <;> trivial

variable (hsleep : ∀ t, P (.sleep t))
include hsleep

theorem uses_uploadAttempts (n attempt : ℕ) (last : Option PyExc) :
    (uploadAttempts fs path b key n attempt last).Uses P := by
  induction n generalizing attempt last with
  | zero => trivial
  | succ n ih =>
    refine (uses_uploadOnce hsend hhead).attempt.bind fun out => ?_
    cases out with
    | ok hex => trivial
    | error e =>
      simp only
      split_ifs
      · trivial
      · exact (uses_request (hsleep _)).bind fun _ => ih _ _
      · exact ih _ _

/-- A verified upload sends its file, asks for what landed and waits. -/
theorem uses_uploadVerified_of : (uploadVerified fs path b key).Uses P :=
  uses_ite trivial (uses_uploadAttempts hsend hhead hsleep _ _ _)

end Uses

theorem uses_uploadVerified (fs : LocalFs) (path : Str) {key : Key} (hS : S key) :
    (uploadVerified fs path b key).Uses (UploadCall b S) :=
  uses_uploadVerified_of (fun _ => ⟨rfl, hS⟩) trivial fun _ => trivial

/-- The object that a verified upload of `path` leaves at `key`. -/
def Holds (fs : LocalFs) (b path : Str) (key : Key) (w : World) : Prop :=
  ∃ t, (key, ⟨t, fs.read path, some (fs.sha256 (fs.read path)).1⟩) ∈ (w.s3 b).entries

theorem exec_uploadOnce_ok {fs : LocalFs} {path key hex : Str}
    (h : Exec (Serves F) (uploadOnce fs path b key) w tr (.ok hex) w') :
    Holds fs b path key w' := by
  obtain ⟨u, tr₁, tr₂, w₁, h₁, h₂, -⟩ := exec_bind_ok.1 h
  obtain ⟨l, ⟨-, hs⟩, -⟩ := exec_request.1 h₁
  have hput : Holds fs b path key w₁ := by
    cases l with
    | ok =>
      obtain ⟨-, t, rfl⟩ := hs
      exact ⟨t, by simp⟩
    | perKey errs => exact hs.elim
    | fail e => cases hs.1
    | lost e => cases hs.1
  obtain ⟨head, tr₃, tr₄, w₂, h₃, h₄, -⟩ := exec_bind_ok.1 h₂
  obtain ⟨l', hs', -⟩ := exec_request.1 h₃
  obtain rfl : w₂ = w₁ := by
    rcases hs'.effect with rfl | ⟨a', h'⟩ | ⟨errs, h'⟩
    · rfl
    · exact h'.1
    · exact h'.elim
  have hw : w' = w₂ := by
    cases hc : head.checksumSHA256 with
    | none =>
      simp only [hc] at h₄
      split_ifs at h₄ <;> exact h₄.2.2
    | some remote =>
      simp only [hc] at h₄
      split_ifs at h₄ <;> exact h₄.2.2
  exact hw ▸ hput

theorem exec_uploadAttempts_ok {fs : LocalFs} {path key hex : Str} {n attempt : ℕ}
    {last : Option PyExc}
    (h : Exec (Serves F) (uploadAttempts fs path b key n attempt last) w tr (.ok hex) w') :
    Holds fs b path key w' := by
  induction n generalizing attempt last w tr with
  | zero => cases h.2.1
  | succ n ih =>
    obtain ⟨out, tr₁, tr₂, w₁, h₁, h₂, -⟩ := exec_attempt_bind.1 h
    cases out with
    | ok hex' =>
      obtain ⟨-, -, rfl⟩ := h₂
      exact exec_uploadOnce_ok h₁
    | error e =>
      simp only at h₂
      split_ifs at h₂
      · cases h₂.2.1
      · obtain ⟨u, tr₃, tr₄, w₂, -, h₄, -⟩ := exec_bind_ok.1 h₂
        exact ih h₄
      · exact ih h₂

theorem exec_uploadVerified_ok {fs : LocalFs} {path key hex : Str}
    (h : Exec (Serves F) (uploadVerified fs path b key) w tr (.ok hex) w') :
    Holds fs b path key w' := by
  rw [uploadVerified] at h
  split_ifs at h
  · cases h.2.1
  · exact exec_uploadAttempts_ok h

def uploadPlanned (fs : LocalFs) (b : Str) (planned : List (Str × Key)) (objs : List Key) :
    Action (List Key) :=
  planned.foldlM (fun objects file => do
    let _ ← uploadVerified fs file.1 b file.2
    return objects ++ [file.2]) objs

/-- The verified uploads of a plan, one after the other: all of them return, or the first that
raises ends them. -/
inductive UploadRun (F : Call → Fate → Prop) (fs : LocalFs) (b : Str) : List (Str × Key) → World →
    List (Step Call Ans Fate World) → Except PyExc Unit → World → Prop where
  | done (w : World) : UploadRun F fs b [] w [] (.ok ()) w
  | sent {f : Str × Key} {planned : List (Str × Key)} {w w₁ w' : World}
      {seg tr : List (Step Call Ans Fate World)} {hex : Str} {r : Except PyExc Unit}
      (hfile : Exec (Serves F) (uploadVerified fs f.1 b f.2) w seg (.ok hex) w₁)
      (hrest : UploadRun F fs b planned w₁ tr r w') :
      UploadRun F fs b (f :: planned) w (seg ++ tr) r w'
  | failed {f : Str × Key} {planned : List (Str × Key)} {w w' : World}
      {seg : List (Step Call Ans Fate World)} {e : PyExc}
      (hfile : Exec (Serves F) (uploadVerified fs f.1 b f.2) w seg (.error e) w') :
      UploadRun F fs b (f :: planned) w seg (.error e) w'

theorem exec_uploadPlanned {fs : LocalFs} {planned : List (Str × Key)} {objs : List Key}
    {r : Except PyExc (List Key)}
    (h : Exec (Serves F) (uploadPlanned fs b planned objs) w tr r w') : ∃ out,
      UploadRun F fs b planned w tr out w' ∧ r = out.map fun _ => objs ++ planned.map Prod.snd := by
  induction planned generalizing objs w tr with
  | nil =>
    obtain ⟨rfl, rfl, rfl⟩ := h
    exact ⟨.ok (), .done w', by simp [Except.map]⟩
  | cons f planned ih =>
    rw [uploadPlanned, List.foldlM_cons, bind_eq] at h
    rcases exec_bind.1 h with ⟨e, he, rfl⟩ | ⟨objs₁, tr₁, tr₂, w₁, h₁, h₂, rfl⟩
    · rcases exec_bind.1 he with ⟨e', hfile, hee⟩ | ⟨hex, tr₁, tr₂, w₁, -, ⟨-, hr, -⟩, -⟩
      · obtain rfl := Except.error.inj hee
        exact ⟨.error e, .failed hfile, rfl⟩
      · cases hr
    · obtain ⟨hex, tr₃, tr₄, w₂, hfile, ⟨rfl, hobjs, rfl⟩, rfl⟩ := exec_bind_ok.1 h₁
      obtain rfl := Except.ok.inj hobjs
      obtain ⟨out, hrest, rfl⟩ := ih h₂
      rw [List.append_nil]
      exact ⟨out, .sent hfile hrest, by simp⟩

theorem uses_uploadPlanned_of {P : Call → Prop} (fs : LocalFs) {planned : List (Str × Key)}
    (hsend : ∀ f ∈ planned, ∀ body hex, P (.uploadFile f.1 b f.2 body hex))
    (hhead : ∀ f ∈ planned, P (.headObject b f.2)) (hsleep : ∀ t, P (.sleep t)) (objs : List Key) :
    (uploadPlanned fs b planned objs).Uses P := by
  refine uses_foldlM (fun objs f hf => ?_) objs
  exact (uses_uploadVerified_of (fun hex => hsend f hf _ hex) (hhead f hf) hsleep).bind fun _ =>
    trivial

theorem uses_uploadPlanned (fs : LocalFs) {planned : List (Str × Key)} (hS : ∀ f ∈ planned, S f.2)
    (objs : List Key) : (uploadPlanned fs b planned objs).Uses (UploadCall b S) :=
  uses_uploadPlanned_of fs (fun f hf _ _ => ⟨rfl, hS f hf⟩) (fun _ _ => trivial)
    (fun _ => trivial) objs

/-- Calls that neither delete nor set a status. -/
def Quiet : Call → Prop
  | .deleteObjects .. => False
  | .setTerminated .. => False
  | _ => True

theorem UploadCall.quiet {c : Call} (h : UploadCall b S c) : Quiet c := by
  cases c <;> trivial

/-- A program of upload calls touches only their keys, at its end and at every point. -/
theorem exec_uploadCalls {α : Type} {p : Action α} {r : Except PyExc α}
    (hp : p.Uses (UploadCall b S)) (h : Exec (Serves F) p w tr r w') :
    Touches b S w w' ∧ ∀ st ∈ tr, Quiet st.call ∧ Touches b S w st.after := by
  have ⟨h', htr⟩ := Exec.of_uses (P := Touches b S w) hp
    (fun _ _ _ _ _ hc hw hs => hw.trans (touches_uploadCall hc hs)) h (.refl w)
  exact ⟨h', fun st hst => ⟨(htr st hst).1.quiet, (htr st hst).2⟩⟩

theorem Holds.touches {fs : LocalFs} {path : Str} {key : Key} (h : Holds fs b path key w)
    (ht : Touches b S w w') (hS : ¬ S key) : Holds fs b path key w' := by
  obtain ⟨t, h⟩ := h
  exact ⟨t, (ht.keys _ hS).2 h⟩

theorem exec_uploadPlanned_ok {fs : LocalFs} {planned : List (Str × Key)} {objs objs' : List Key}
    (hnd : (planned.map Prod.snd).Nodup)
    (h : Exec (Serves F) (uploadPlanned fs b planned objs) w tr (.ok objs') w') :
    ∀ f ∈ planned, Holds fs b f.1 f.2 w' := by
  induction planned generalizing objs w tr with
  | nil => simp
  | cons f fs' ih =>
    obtain ⟨hf, hnd⟩ := List.nodup_cons.1 hnd
    rw [uploadPlanned, List.foldlM_cons, bind_eq] at h
    obtain ⟨objs₁, tr₁, tr₂, w₁, h₁, h₂, -⟩ := exec_bind_ok.1 h
    obtain ⟨hex, tr₃, tr₄, w₂, h₃, ⟨-, -, rfl⟩, -⟩ := exec_bind_ok.1 h₁
    refine List.forall_mem_cons.2 ⟨?_, ih hnd h₂⟩
    exact (exec_uploadVerified_ok h₃).touches (exec_uploadCalls (S := (· ∈ fs'.map Prod.snd))
      (uses_uploadPlanned fs (fun g hg => List.mem_map_of_mem hg) objs₁) h₂).1 hf

section Plan

/-- No two files go to one key, and every key is below the run's prefix. -/
def IsPlan (pre : Key) (planned : List (Str × Key)) : Prop :=
  (planned.map Prod.snd).Nodup ∧ ∀ f ∈ planned, pre <+: f.2

theorem planFile_ok {pre : Key} {planned planned' : List (Str × Key)} {file : Str × Str}
    (hP : IsPlan pre planned) (h : planFile pre planned file = .ok planned') :
    IsPlan pre planned' := by
  obtain ⟨hnd, hpre⟩ := hP
  rw [planFile] at h
  split at h
  · cases h
  · next hnone =>
    obtain rfl := Except.ok.inj h
    refine ⟨?_, ?_⟩
    · rw [List.map_append]
      refine hnd.append (List.nodup_singleton _) (List.disjoint_singleton.2 fun hm => ?_)
      obtain ⟨g, hg, hk⟩ := List.mem_map.1 hm
      exact absurd (List.find?_eq_none.1 hnone g hg) (by simp [hk])
    · intro g hg
      rcases List.mem_append.1 hg with hg | hg
      · exact hpre g hg
      · rw [List.mem_singleton.1 hg]
        exact List.prefix_append _ _

theorem planArtifacts_ok {fs : LocalFs} {pre : Key} {artifacts : List Str}
    {planned : List (Str × Key)} (h : planArtifacts fs pre artifacts = .ok planned) :
    IsPlan pre planned := by
  refine foldlM_ok_inv (fun planned path planned' hP hstep => ?_) h ⟨.nil, by simp⟩
  cases hfiles : fs.iterFiles path with
  | error e =>
    rw [hfiles] at hstep
    cases hstep
  | ok files =>
    rw [hfiles] at hstep
    exact foldlM_ok_inv (fun _ _ _ => planFile_ok) hstep hP

end Plan

end Accel.Model
