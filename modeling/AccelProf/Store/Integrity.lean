import AccelProf.Model.Hashing
import AccelProf.Spec.Reference
import AccelProf.Store.Effects

/-! Uploads over a transport that may damage what it carries: what an accepted upload has stored. -/

namespace Accel.Model
open Data Program Prog

/-- An object as the server has it. It knows the digest of the whole object only if that came in a
single part. -/
structure Stored where
  body : Bytes
  hex : Str
  single : Bool

abbrev Objects := Str → Key → Option Stored

variable {sha : Bytes → Bytes} {h : Hasher} {fs : LocalFs} {path bucket key : Str}
  {s s₁ s' : Objects} {tr : List (Step Call Ans Unit Objects)}

/-- The server tells the truth about what arrived. -/
structure Stored.Reports (sha : Bytes → Bytes) (o : Stored) (head : Head) : Prop where
  length : head.contentLength = o.body.length
  checksum : o.single = true → head.checksumSHA256 = some (base64Text (sha o.body))
  composite : o.single = false → ∀ t, head.checksumSHA256 = some t → '-' ∈ t

/-- What is stored at one place may change by an upload to it, however the upload ends. -/
def OnlyAt (bucket key : Str) (s s' : Objects) : Prop :=
  ∀ b k, (b, k) ≠ (bucket, key) → s' b k = s b k

theorem OnlyAt.trans (h₁ : OnlyAt bucket key s s₁) (h₂ : OnlyAt bucket key s₁ s') :
    OnlyAt bucket key s s' := fun b k hne => (h₂ b k hne).trans (h₁ b k hne)

/-- Any bytes may arrive, under the metadata that was sent; the server is honest about them. -/
def Corrupting (sha : Bytes → Bytes) : Service Call Ans Unit Objects := fun s c _ a s' =>
  match c, a with
  | .uploadFile _ b k _ hex, .ok _ =>
    OnlyAt b k s s' ∧ ∃ o, s' b k = some o ∧ o.hex = hex
  | .uploadFile _ b k _ _, .error _ => OnlyAt b k s s'
  | .headObject b k, .ok head => s' = s ∧ ∃ o, s b k = some o ∧ o.Reports sha head
  | .headObject _ _, .error _ => s' = s
  | .sleep _, _ => s' = s
  | _, _ => True

/-- What is stored has the digest of what was sent, or its length where no digest is known, and
carries the digest along. -/
structure Intact (sha : Bytes → Bytes) (content : Bytes) (o : Stored) : Prop where
  hex : o.hex = hexText (sha content)
  digest : o.single = true → sha o.body = sha content
  length : o.single = false → o.body.length = content.length

section One

/-- What holds of a result holds where there is none. -/
theorem forall_of_error {α : Type} {P : α → Prop} {e : PyExc} :
    ∀ a, (Except.error e : Except PyExc α) = .ok a → P a := by
  intro a h
  cases h

theorem exec_sent {body : Bytes} {hex : Str} {r : Except PyExc Unit}
    (hx : Exec (Corrupting sha) (request (.uploadFile path bucket key body hex)) s tr r s') :
    OnlyAt bucket key s s' ∧ (r = .ok () → ∃ o, s' bucket key = some o ∧ o.hex = hex) := by
  obtain ⟨l, hs, -⟩ := exec_perform.1 hx
  cases r with
  | ok u => exact ⟨hs.1, fun _ => hs.2⟩
  | error e => exact ⟨hs, nofun⟩

theorem exec_head {r : Except PyExc Head}
    (hx : Exec (Corrupting sha) (request (.headObject bucket key)) s tr r s') : s' = s ∧
      ∀ head, r = .ok head → ∃ o, s bucket key = some o ∧ o.Reports sha head := by
  obtain ⟨l, hs, -⟩ := exec_perform.1 hx
  cases r with
  | ok head =>
    refine ⟨hs.1, fun head' hh => ?_⟩
    obtain rfl := Except.ok.inj hh
    exact hs.2
  | error e => exact ⟨hs, forall_of_error⟩

/-- An attempt touches its own place only, and succeeds only if what landed is intact. -/
theorem exec_uploadOnce_intact (hfs : fs.sha256 = sha256HexAndB64OfFile h)
    {r : Except PyExc Str}
    (hx : Exec (Corrupting h.hash) (uploadOnce fs path bucket key) s tr r s') :
    OnlyAt bucket key s s' ∧ ∀ hex, r = .ok hex → hex = hexText (h.hash (fs.read path)) ∧
      ∃ o, s' bucket key = some o ∧ Intact h.hash (fs.read path) o := by
  simp only [uploadOnce, hfs, h.sha256_eq, bind_eq, pure_eq] at hx
  rcases exec_bind.1 hx with ⟨e, hsend, rfl⟩ | ⟨u, tr₁, tr₂, s₁, hsend, hx₁, -⟩
  · exact ⟨(exec_sent hsend).1, forall_of_error⟩
  obtain ⟨honly, hsent⟩ := exec_sent hsend
  obtain ⟨o, ho, hsame⟩ := hsent rfl
  have hhex : o.hex = hexText (h.hash (fs.read path)) := by
    have hpair : fs.sha256 (fs.read path) =
        (hexText (h.hash (fs.read path)), base64Text (h.hash (fs.read path))) := by
      rw [hfs, h.sha256_eq]
    exact hsame.trans (congrArg Prod.fst hpair)
  rcases exec_bind.1 hx₁ with ⟨e, hhead, rfl⟩ | ⟨head, tr₃, tr₄, s₂, hhead, hx₂, -⟩
  · obtain ⟨rfl, -⟩ := exec_head hhead
    exact ⟨honly, forall_of_error⟩
  obtain ⟨rfl, hreports⟩ := exec_head hhead
  obtain ⟨o', ho', hrep⟩ := hreports head rfl
  obtain rfl := Option.some.inj (ho.symm.trans ho')
  have hsingle : o.single = true → head.checksumSHA256 = some (base64Text (h.hash o.body)) :=
    hrep.checksum
  -- the size decides only where the server does not know the digest of the whole
  have hsize : o.single = false → head.contentLength = (fs.read path).length →
      Intact h.hash (fs.read path) o := by
    intro hmulti hlen
    refine ⟨hhex, fun htrue => ?_, fun _ => hrep.length.symm.trans hlen⟩
    rw [hmulti] at htrue
    cases htrue
  suffices hres : s' = s₂ ∧ ∀ hex, r = .ok hex → hex = hexText (h.hash (fs.read path)) ∧
      Intact h.hash (fs.read path) o by
    obtain ⟨rfl, hok⟩ := hres
    exact ⟨honly, fun hex hh => ⟨(hok hex hh).1, o, ho, (hok hex hh).2⟩⟩
  cases hsum : head.checksumSHA256 with
  | none =>
    have hmulti : o.single = false := by
      cases hs : o.single with
      | false => rfl
      | true =>
        rw [hsingle hs] at hsum
        cases hsum
    rw [hsum] at hx₂
    split_ifs at hx₂ with hlen
    · obtain ⟨-, rfl, rfl⟩ := hx₂
      exact ⟨rfl, forall_of_error⟩
    · obtain ⟨-, rfl, rfl⟩ := hx₂
      exact ⟨rfl, fun hex hh => ⟨(Except.ok.inj hh).symm, hsize hmulti (not_not.1 hlen)⟩⟩
  | some remote =>
    rw [hsum] at hx₂
    by_cases hdash : '-' ∈ remote
    · have hmulti : o.single = false := by
        cases hs : o.single with
        | false => rfl
        | true =>
          rw [hsingle hs] at hsum
          obtain rfl := Option.some.inj hsum
          exact absurd hdash (dash_not_mem_base64Text _)
      simp only [if_pos hdash] at hx₂
      split_ifs at hx₂ with hlen
      · obtain ⟨-, rfl, rfl⟩ := hx₂
        exact ⟨rfl, forall_of_error⟩
      · obtain ⟨-, rfl, rfl⟩ := hx₂
        exact ⟨rfl, fun hex hh => ⟨(Except.ok.inj hh).symm, hsize hmulti (not_not.1 hlen)⟩⟩
    · simp only [if_neg hdash] at hx₂
      split_ifs at hx₂ with hdiffer
      · obtain ⟨-, rfl, rfl⟩ := hx₂
        exact ⟨rfl, forall_of_error⟩
      · obtain ⟨-, rfl, rfl⟩ := hx₂
        refine ⟨rfl, fun hex hh => ⟨(Except.ok.inj hh).symm, hhex, fun hs => ?_, fun hs => ?_⟩⟩
        · rw [hsingle hs] at hsum
          obtain rfl := Option.some.inj hsum
          exact base64Text_injective (not_not.1 hdiffer)
        · exact absurd (hrep.composite hs remote hsum) hdash

end One

section Many

theorem exec_uploadAttempts_intact (hfs : fs.sha256 = sha256HexAndB64OfFile h) {n attempt : ℕ}
    {last : Option PyExc} {r : Except PyExc Str}
    (hx : Exec (Corrupting h.hash) (uploadAttempts fs path bucket key n attempt last) s tr r s') :
    OnlyAt bucket key s s' ∧ ∀ hex, r = .ok hex → hex = hexText (h.hash (fs.read path)) ∧
      ∃ o, s' bucket key = some o ∧ Intact h.hash (fs.read path) o := by
  induction n generalizing s tr attempt last with
  | zero =>
    obtain ⟨-, rfl, rfl⟩ := hx
    exact ⟨fun _ _ _ => rfl, forall_of_error⟩
  | succ n ih =>
    simp only [uploadAttempts, bind_eq] at hx
    obtain ⟨out, tr₁, tr₂, s₁, htry, hx₁, -⟩ := exec_attempt_bind.1 hx
    obtain ⟨honly, hintact⟩ := exec_uploadOnce_intact hfs htry
    cases out with
    | ok hex =>
      obtain ⟨-, rfl, rfl⟩ := hx₁
      exact ⟨honly, fun hex' hh => hintact hex' hh⟩
    | error e =>
      have hagain : ∀ {tr : List (Step Call Ans Unit Objects)},
          Exec (Corrupting h.hash) (uploadAttempts fs path bucket key n (attempt + 1) (some e)) s₁
            tr r s' → OnlyAt bucket key s s' ∧ ∀ hex, r = .ok hex →
              hex = hexText (h.hash (fs.read path)) ∧
                ∃ o, s' bucket key = some o ∧ Intact h.hash (fs.read path) o := fun hy => by
        obtain ⟨honly', hintact'⟩ := ih hy
        exact ⟨honly.trans honly', hintact'⟩
      dsimp only at hx₁
      split_ifs at hx₁ with hfinal hmore
      · obtain ⟨-, rfl, rfl⟩ := hx₁
        exact ⟨honly, forall_of_error⟩
      · rcases exec_bind.1 hx₁ with ⟨e', hsleep, rfl⟩ | ⟨u, tr₃, tr₄, s₂, hsleep, hx₂, -⟩
        · obtain ⟨l, hs, -⟩ := exec_perform.1 hsleep
          obtain rfl : s' = s₁ := hs
          exact ⟨honly, forall_of_error⟩
        · obtain ⟨l, hs, -⟩ := exec_perform.1 hsleep
          obtain rfl : s₂ = s₁ := hs
          exact hagain hx₂
      · exact hagain hx₁

theorem exec_uploadVerified_intact (hfs : fs.sha256 = sha256HexAndB64OfFile h)
    {r : Except PyExc Str}
    (hx : Exec (Corrupting h.hash) (uploadVerified fs path bucket key) s tr r s') :
    OnlyAt bucket key s s' ∧ ∀ hex, r = .ok hex → hex = hexText (h.hash (fs.read path)) ∧
      ∃ o, s' bucket key = some o ∧ Intact h.hash (fs.read path) o := by
  unfold uploadVerified at hx
  split_ifs at hx
  · obtain ⟨-, rfl, rfl⟩ := hx
    exact ⟨fun _ _ _ => rfl, forall_of_error⟩
  · exact exec_uploadAttempts_intact hfs hx

end Many

section All
variable {planned : List (Str × Key)}

/-- The uploads of a plan leave every other place alone, and each its own file intact. -/
theorem exec_uploads_intact (hfs : fs.sha256 = sha256HexAndB64OfFile h)
    (hnd : (planned.map Prod.snd).Nodup) {sent : List Key} {r : Except PyExc (List Key)}
    (hx : Exec (Corrupting h.hash) (uploadPlanned fs bucket planned sent) s tr r s') :
    (∀ b k, s' b k ≠ s b k → b = bucket ∧ k ∈ planned.map Prod.snd) ∧
    ∀ objects, r = .ok objects → objects = sent ++ planned.map Prod.snd ∧ ∀ file ∈ planned,
      ∃ o, s' bucket file.2 = some o ∧ Intact h.hash (fs.read file.1) o := by
  induction planned generalizing s tr sent with
  | nil =>
    obtain ⟨-, rfl, rfl⟩ := hx
    refine ⟨fun b k hne => absurd rfl hne, fun objects hh => ?_⟩
    obtain rfl := Except.ok.inj hh
    exact ⟨(List.append_nil sent).symm, fun file hf => absurd hf List.not_mem_nil⟩
  | cons file planned ih =>
    rw [List.map_cons, List.nodup_cons] at hnd
    rw [uploadPlanned, List.foldlM_cons, bind_eq] at hx
    have hchanged : ∀ {s₁ : Objects}, OnlyAt bucket file.2 s s₁ → ∀ b k, s₁ b k ≠ s b k →
        b = bucket ∧ k = file.2 := fun honly b k hne => by
      by_contra hother
      exact hne (honly b k fun heq => hother ⟨congrArg Prod.fst heq, congrArg Prod.snd heq⟩)
    rcases exec_bind.1 hx with ⟨e, hfile, rfl⟩ | ⟨objects, tr₁, tr₂, s₁, hfile, hx₁, -⟩
    · rcases exec_bind.1 hfile with ⟨e', hup, -⟩ | ⟨hex, tr₃, tr₄, s₂, hup, hret, -⟩
      · obtain ⟨honly, -⟩ := exec_uploadVerified_intact hfs hup
        refine ⟨fun b k hne => ?_, forall_of_error⟩
        obtain ⟨rfl, rfl⟩ := hchanged honly b k hne
        exact ⟨rfl, List.mem_cons_self⟩
      · obtain ⟨-, hr, -⟩ := hret
        cases hr
    obtain ⟨hex, tr₃, tr₄, s₂, hup, hret, -⟩ := exec_bind_ok.1 hfile
    obtain ⟨-, hr, rfl⟩ := hret
    obtain rfl := Except.ok.inj hr
    obtain ⟨honly, hintact⟩ := exec_uploadVerified_intact hfs hup
    obtain ⟨-, o, ho, hgood⟩ := hintact hex rfl
    obtain ⟨hframe, hrest⟩ := ih hnd.2 hx₁
    constructor
    · intro b k hne
      by_cases hlater : s' b k = s₁ b k
      · obtain ⟨rfl, rfl⟩ := hchanged honly b k (by rwa [hlater] at hne)
        exact ⟨rfl, List.mem_cons_self⟩
      · obtain ⟨rfl, hk⟩ := hframe b k hlater
        exact ⟨rfl, List.mem_cons_of_mem _ hk⟩
    · intro objects hh
      obtain ⟨rfl, hall⟩ := hrest objects hh
      refine ⟨by simp, List.forall_mem_cons.2 ⟨⟨o, ?_, hgood⟩, hall⟩⟩
      -- no later file of the plan has the same key
      by_contra hchange
      rw [← ho] at hchange
      exact hnd.1 (hframe bucket file.2 hchange).2

/-- **An upload that succeeds has every planned file intact in the bucket, whatever the transport
did to the bytes and however often it was retried.** Also one that fails touches planned keys
only. -/
theorem uploads_intact (h : Hasher) (fs : LocalFs) (hfs : fs.sha256 = sha256HexAndB64OfFile h)
    {bucket aliasName runId : Str} {artifacts : Option (List Str)} {s s' : Objects}
    {tr : List (Step Call Ans Unit Objects)} {r : Except PyExc Uploaded}
    (hx : Exec (Corrupting h.hash) (uploadArtifacts fs bucket aliasName runId artifacts)
      s tr r s') :
    (∀ b k, s' b k ≠ s b k → b = bucket ∧ ∃ planned,
      planArtifacts fs (runPrefix aliasName runId) (artifacts.getD []) = .ok planned ∧
        k ∈ planned.map Prod.snd) ∧
    ∀ up, r = .ok up → ∃ planned,
      planArtifacts fs (runPrefix aliasName runId) (artifacts.getD []) = .ok planned ∧
        up.objects = planned.map Prod.snd ∧ ∀ file ∈ planned,
          ∃ o, s' bucket file.2 = some o ∧ Intact h.hash (fs.read file.1) o := by
  unfold uploadArtifacts at hx
  cases hplan : planArtifacts fs (runPrefix aliasName runId) (artifacts.getD []) with
  | error e =>
    rw [hplan] at hx
    obtain ⟨-, rfl, rfl⟩ := hx
    exact ⟨fun b k hne => absurd rfl hne, forall_of_error⟩
  | ok planned =>
    rw [hplan, ofExcept_ok, bind_eq, ret_bind] at hx
    -- the keys differ, so no later file undoes an earlier one
    obtain ⟨hnd, -⟩ := planArtifacts_ok hplan
    rcases exec_bind.1 hx with ⟨e, hsend, rfl⟩ | ⟨objects, tr₁, tr₂, s₁, hsend, hret, -⟩
    · obtain ⟨hframe, -⟩ := exec_uploads_intact hfs hnd hsend
      refine ⟨fun b k hne => ?_, forall_of_error⟩
      obtain ⟨hb, hk⟩ := hframe b k hne
      exact ⟨hb, planned, rfl, hk⟩
    · obtain ⟨-, rfl, rfl⟩ := hret
      obtain ⟨hframe, hsent⟩ := exec_uploads_intact hfs hnd hsend
      refine ⟨fun b k hne => ?_, fun up hh => ?_⟩
      · obtain ⟨hb, hk⟩ := hframe b k hne
        exact ⟨hb, planned, rfl, hk⟩
      · obtain rfl := Except.ok.inj hh
        obtain ⟨hobjects, hall⟩ := hsent objects rfl
        exact ⟨planned, rfl, by simpa using hobjects, hall⟩

end All

section Sample

/-- The digest of no bytes at all, as `hashlib.sha256` has it. -/
def emptyDigest : Bytes :=
  [0xe3, 0xb0, 0xc4, 0x42, 0x98, 0xfc, 0x1c, 0x14, 0x9a, 0xfb, 0xf4, 0xc8, 0x99, 0x6f, 0xb9, 0x24,
    0x27, 0xae, 0x41, 0xe4, 0x64, 0x9b, 0x93, 0x4c, 0xa4, 0x95, 0x99, 0x1b, 0x78, 0x52, 0xb8, 0x55]

def sampleHasher : Hasher where
  State := Bytes
  init := []
  update := fun s chunk => s ++ chunk
  digest := fun s => if s = [] then emptyDigest else s
  update_nil := List.append_nil
  update_append := fun s a b => List.append_assoc s a b

def hashingFs : LocalFs where
  cwd := ['/']
  isdir := fun _ => false
  pathExists := fun path => path = "/t.json".toList
  walk := fun _ => []
  read := fun _ => []
  sha256 := sha256HexAndB64OfFile sampleHasher

example : hashingFs.sha256 (hashingFs.read "/t.json".toList) =
    ("e3b0c44298fc1c149afbf4c8996fb92427ae41e4649b934ca495991b7852b855".toList,
      "47DEQpj8HBSa+/TImW+5JCeuQeRkm5NMpJWZG3hSuFU=".toList) := by decide +kernel

def Objects.store (s : Objects) (bucket key : Str) (o : Stored) : Objects := fun b k =>
  if (b, k) = (bucket, key) then some o else s b k

/-- The first bytes for a place arrive damaged, in an upload that breaks off. -/
def flaky (s : Objects) : (c : Call) → Unit × Ans c × Objects
  | .uploadFile _ b k body hex =>
    match s b k with
    | none => ((), .error (.service unavailable), s.store b k ⟨[0], hex, true⟩)
    | some _ => ((), .ok (), s.store b k ⟨body, hex, true⟩)
  | .headObject b k =>
    match s b k with
    | none => ((), .error (.service unavailable), s)
    | some o =>
      ((), .ok ⟨if o.single then some (base64Text (sampleHasher.hash o.body)) else none,
        o.body.length⟩, s)
  | .sleep _ => ((), .ok (), s)
  | _ => ((), .error (.service unavailable), s)

theorem onlyAt_store (s : Objects) (bucket key : Str) (o : Stored) :
    OnlyAt bucket key s (s.store bucket key o) := fun _ _ hne => if_neg hne

theorem corrupting_flaky (s : Objects) (c : Call) :
    Corrupting sampleHasher.hash s c (flaky s c).1 (flaky s c).2.1 (flaky s c).2.2 := by
  cases c with
  | uploadFile path b k body hex =>
    simp only [flaky]
    cases s b k with
    | none => exact onlyAt_store s b k _
    | some o => exact ⟨onlyAt_store s b k _, _, if_pos rfl, rfl⟩
  | headObject b k =>
    simp only [flaky]
    cases ho : s b k with
    | none => exact rfl
    | some o =>
      refine ⟨rfl, o, ho, rfl, fun hs => if_pos hs, fun hs t ht => ?_⟩
      rw [hs] at ht
      cases ht
  | sleep t => exact rfl
  | _ => exact trivial

/-- A run's upload of one empty file. -/
def hashedUpload : Action Uploaded :=
  uploadArtifacts hashingFs "pool".toList ['a'] (sampleRunId '0') (some ["/t.json".toList])

theorem hashedUpload_ok : ∃ tr up s',
    Exec (Corrupting sampleHasher.hash) hashedUpload (fun _ _ => none) tr (.ok up) s' := by
  have hret : (run flaky hashedUpload fun _ _ => none).2.1.isOk = true := by decide +kernel
  have hx := exec_run (p := hashedUpload) (w := fun _ _ => none) corrupting_flaky
  cases hout : (run flaky hashedUpload fun _ _ => none).2.1 with
  | error e =>
    rw [hout] at hret
    cases hret
  | ok up =>
    rw [hout] at hx
    exact ⟨_, up, _, hx⟩

/-- The second attempt puts right what the first one left. -/
theorem uploads_intact_flaky : ∃ up : Uploaded, ∃ s' : Objects, ∃ planned,
    planArtifacts hashingFs (runPrefix ['a'] (sampleRunId '0')) ["/t.json".toList] = .ok planned ∧
      up.objects = planned.map Prod.snd ∧ ∀ file ∈ planned,
        ∃ o, s' "pool".toList file.2 = some o ∧
          Intact sampleHasher.hash (hashingFs.read file.1) o := by
  obtain ⟨tr, up, s', hx⟩ := hashedUpload_ok
  exact ⟨up, s', (uploads_intact sampleHasher hashingFs rfl hx).2 up rfl⟩

end Sample

end Accel.Model
