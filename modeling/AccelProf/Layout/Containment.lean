import AccelProf.Layout.Copy

/-! Where a download may write: the string test on a normalised path is containment of its
components, so every file and every new directory is at or below the destination. -/

namespace Accel.Model
open Data Program Prog

variable {cwd : Str} {D ns q : List Str} {parsed : ParsedS3Uri} {key : Key}

section Test

/-- The test of `download_prefix`: the path is the destination or starts with it and a slash. -/
def Accepts (D q : List Str) : Prop := slashed q = slashed D ∨ slashed D ++ ['/'] <+: slashed q

instance (D q : List Str) : Decidable (Accepts D q) := inferInstanceAs (Decidable (_ ∨ _))

theorem slashed_inj (hD : ∀ n ∈ D, IsName n) (hq : ∀ n ∈ q, IsName n) (h : slashed D = slashed q) :
    D = q := by
  rw [← realComponents_slashed [] hD, h, realComponents_slashed [] hq]

/-- What the test lets through stands at or below the destination, component by component. -/
theorem Accepts.isPrefix (hD : ∀ n ∈ D, IsName n) (hq : ∀ n ∈ q, IsName n) (h : Accepts D q) :
    D <+: q := by
  rcases h with h | ⟨t, ht⟩
  · rw [slashed_inj hq hD h]
  by_cases hne : D = []
  · rw [hne]
    exact List.nil_prefix
  have hlong : slashed D ++ '/' :: t = slashed q := by simpa using ht
  have hqne : q ≠ [] := by
    rintro rfl
    have hlen := congrArg List.length hlong
    rw [List.length_append, slashed_eq D] at hlen
    simp only [slashed_eq, joined, List.intersperse_nil, List.flatten_nil, List.length_cons,
      List.length_nil] at hlen
    omega
  have hsplit := congrArg (List.splitOn '/') hlong
  rw [List.splitOn_append_cons_self, splitOn_slashed (slash_not_mem_of_names hD) hne,
    splitOn_slashed (slash_not_mem_of_names hq) hqne, List.cons_append] at hsplit
  exact ⟨_, (List.cons.inj hsplit).2⟩

theorem accepts_iff (hne : D ≠ []) (hD : ∀ n ∈ D, IsName n) (hq : ∀ n ∈ q, IsName n) :
    Accepts D q ↔ D <+: q := by
  refine ⟨Accepts.isPrefix hD hq, ?_⟩
  rintro ⟨ms, rfl⟩
  by_cases hms : ms = []
  · left
    rw [hms, List.append_nil]
  · right
    rw [slashed_append hne hms]
    exact ⟨joined ms, by simp⟩

end Test

section Round

/-- Where the object at `key` would go, below the destination with the components `D`. -/
def target (cwd : Str) (D : List Str) (parsed : ParsedS3Uri) (key : Key) : List Str :=
  realComponents cwd (pathJoin (slashed D) (key.drop parsed.key.length))

/-- Neither the prefix itself nor a directory placeholder. -/
def Copies (parsed : ParsedS3Uri) (key : Key) : Prop :=
  ¬ (key.drop parsed.key.length = [] ∨ (key.drop parsed.key.length).getLast? = some '/')

instance (parsed : ParsedS3Uri) (key : Key) : Decidable (Copies parsed key) :=
  inferInstanceAs (Decidable (¬ _))

theorem target_names : ∀ n ∈ target cwd D parsed key, IsName n := realComponents_names _ _

theorem dirname_of_names (h : ∀ n ∈ q, IsName n) : dirname (slashed q) = slashed q.dropLast := by
  rcases List.eq_nil_or_concat' q with rfl | ⟨dirs, n, rfl⟩
  · decide
  · rw [List.dropLast_concat]
    exact dirname_slashed (fun m hm => h m (by simp [hm])) (h n (by simp))

/-- The two calls that copy one object. -/
def copyCalls (cwd : Str) (D : List Str) (parsed : ParsedS3Uri) (key : Key) : List TransferCall :=
  [.makedirs (slashed (target cwd D parsed key).dropLast),
    .downloadFile parsed.bucket key (slashed (target cwd D parsed key))]

theorem downloadKey_skips (written : List Str) (h : ¬ Copies parsed key) :
    downloadKey cwd parsed (slashed D) written key = ret written := by
  unfold downloadKey
  rw [if_pos (not_not.1 h)]
  rfl

theorem downloadKey_refuses (written : List Str) (hc : Copies parsed key)
    (h : ¬ Accepts D (target cwd D parsed key)) :
    downloadKey cwd parsed (slashed D) written key = raise (.escapesDest key) := by
  have hlocal : realpath cwd (pathJoin (slashed D) (key.drop parsed.key.length)) =
      slashed (target cwd D parsed key) :=
    rfl
  unfold downloadKey
  rw [if_neg hc, hlocal, if_pos (not_or.1 h)]

theorem downloadKey_copies (written : List Str) (hc : Copies parsed key)
    (h : Accepts D (target cwd D parsed key)) :
    downloadKey cwd parsed (slashed D) written key =
      (transfer (.makedirs (slashed (target cwd D parsed key).dropLast))).bind fun _ =>
        (transfer
          (.downloadFile parsed.bucket key (slashed (target cwd D parsed key)))).bind fun _ =>
          ret (written ++ [slashed (target cwd D parsed key)]) := by
  have hdir : dirname (slashed (target cwd D parsed key)) =
      slashed (target cwd D parsed key).dropLast :=
    dirname_of_names target_names
  have hslashed : slashed (target cwd D parsed key).dropLast ≠ [] := by
    rw [slashed_eq]
    simp
  have hlocal : realpath cwd (pathJoin (slashed D) (key.drop parsed.key.length)) =
      slashed (target cwd D parsed key) :=
    rfl
  unfold downloadKey
  rw [if_neg hc, hlocal, if_neg (fun hn => (not_or.2 hn) h), hdir, if_neg hslashed]
  rfl

end Round

section Confined
variable {F : TransferCall → Fate → Prop} {s s' : World × Dir} {d d' d₀ d₁ : Dir}

/-- A call that only makes directories above, at or below `D` and only writes files at or below
it. -/
def StaysIn (D : List Str) : TransferCall → Prop
  | .s3 _ => True
  | .makedirs p => ∃ q, (∀ n ∈ q, IsName n) ∧ p = slashed q ∧ (q <+: D ∨ D <+: q)
  | .downloadFile _ _ p => ∃ q, (∀ n ∈ q, IsName n) ∧ p = slashed q ∧ D <+: q

/-- Files differ at or below `D` only, and directories there or above it. -/
structure DiffersIn (D : List Str) (d d' : Dir) : Prop where
  files : ∀ q, d'.fileAt q ≠ d.fileAt q → D <+: q
  dirs : ∀ q, d'.isDir q ≠ d.isDir q → q <+: D ∨ D <+: q

theorem DiffersIn.refl (D : List Str) (d : Dir) : DiffersIn D d d :=
  ⟨fun _ h => absurd rfl h, fun _ h => absurd rfl h⟩

theorem DiffersIn.trans (h : DiffersIn D d₀ d₁) (h' : DiffersIn D d₁ d) : DiffersIn D d₀ d where
  files := fun q hq => by
    by_cases he : d₁.fileAt q = d₀.fileAt q
    · exact h'.files q (he ▸ hq)
    · exact h.files q he
  dirs := fun q hq => by
    by_cases he : d₁.isDir q = d₀.isDir q
    · exact h'.dirs q (he ▸ hq)
    · exact h.dirs q he

/-- Making directories, also when a file stops it half way, makes no others than asked for. -/
theorem foldl_makedirsStep_isDir (h : ∀ n ∈ ns, IsName n) (t : Dir × Option (List Str))
    (ht : ∀ cur, t.2 = some cur → cur ++ ns <+: q)
    (hsub : ∀ r, t.1.isDir r = true → d.isDir r = true ∨ r <+: q)
    (hsup : ∀ r, d.isDir r = true → t.1.isDir r = true) (hfile : ∀ r, t.1.fileAt r = d.fileAt r) :
    (∀ r, (ns.foldl makedirsStep t).1.isDir r = true → d.isDir r = true ∨ r <+: q) ∧
      (∀ r, d.isDir r = true → (ns.foldl makedirsStep t).1.isDir r = true) ∧
      ∀ r, (ns.foldl makedirsStep t).1.fileAt r = d.fileAt r := by
  induction ns generalizing t with
  | nil => exact ⟨hsub, hsup, hfile⟩
  | cons n ns ih =>
    obtain ⟨hn, hns⟩ := List.forall_mem_cons.1 h
    obtain ⟨e, cur⟩ := t
    rw [List.foldl_cons]
    cases cur with
    | none => exact ih hns _ (fun cur hc => by cases hc) hsub hsup hfile
    | some cur =>
      have hcur := ht cur rfl
      cases hm : e.mkdirs (cur ++ [n]) with
      | none =>
        have hstep : makedirsStep (e, some cur) n = (e, none) := by
          unfold makedirsStep
          simp only [hn.1, hn.2.1, hn.2.2.1, or_self, if_false, hm]
        rw [hstep]
        exact ih hns _ (fun cur hc => by cases hc) hsub hsup hfile
      | some e' =>
        obtain ⟨hfile', hdir'⟩ := FileTree.mkdirs_eq_some hm
        rw [makedirsStep_name hn hm]
        have happ : cur ++ n :: ns = cur ++ [n] ++ ns := by simp
        refine ih hns _ (fun cur' hc => ?_) (fun r hr => ?_) (fun r hr => ?_) fun r =>
          (hfile' r).trans (hfile r)
        · rw [← Option.some.inj hc, ← happ]
          exact hcur
        · rcases (hdir' r).1 hr with hr | hr
          · exact hsub r hr
          · exact .inr ((hr.trans (happ ▸ List.prefix_append _ _)).trans hcur)
        · exact (hdir' r).2 (.inl (hsup r hr))

theorem makedirs_differsIn (hq : ∀ n ∈ q, IsName n) (hD : q <+: D ∨ D <+: q) :
    DiffersIn D d (makedirs cwd (slashed q) d).1 := by
  have hmake : (makedirs cwd (slashed q) d).1 = (q.foldl makedirsStep (d, some [])).1 := by
    have hstep : makedirsStep (d, some []) [] = (d, some []) := rfl
    unfold makedirs
    rw [if_neg (by rw [slashed_eq]; simp), pathJoin_of_absolute _ rfl,
      foldl_slashed (slash_not_mem_of_names hq) hstep]
  obtain ⟨hsub, hsup, hfile⟩ := foldl_makedirsStep_isDir (d := d) (q := q) hq (d, some [])
    (fun cur hc => by rw [← Option.some.inj hc, List.nil_append]) (fun r hr => .inl hr)
      (fun r hr => hr) fun r => rfl
  rw [hmake]
  refine ⟨fun r hr => absurd (hfile r) hr, fun r hr => ?_⟩
  have hrq : r <+: q := by
    by_contra hn
    refine hr (Bool.eq_iff_iff.2 ⟨fun h => (hsub r h).resolve_right hn, hsup r⟩)
  rcases hD with hD | hD
  · exact .inl (hrq.trans hD)
  · exact List.prefix_or_prefix_of_prefix hrq hD

/-- A call that stays in `D` changes the machine there only, whatever happens to it. -/
theorem StaysIn.serving {c : TransferCall} {l : Fate} {a : TransferAns c} (hc : StaysIn D c)
    (h : Serving cwd F s c l a s') : DiffersIn D s.2 s'.2 := by
  cases c with
  | s3 c =>
    rw [h.2]
    exact .refl D _
  | makedirs p =>
    obtain ⟨q, hq, rfl, hD⟩ := hc
    obtain ⟨-, -, hm⟩ := h
    cases l with
    | ok =>
      rw [hm.1]
      exact makedirs_differsIn hq hD
    | perKey errs => exact hm.elim
    | fail e =>
      rw [hm.2]
      exact .refl D _
    | lost e => exact hm.elim
  | downloadFile b key p =>
    obtain ⟨q, hq, rfl, hD⟩ := hc
    obtain ⟨-, -, hm⟩ := h
    cases l with
    | ok =>
      unfold Locally Downloads at hm
      rw [realComponents_slashed cwd hq] at hm
      cases hg : (s.1.s3 b).get key with
      | none =>
        simp only [hg] at hm
        rw [hm.2]
        exact .refl D _
      | some obj =>
        cases hw : s.2.write obj.body q with
        | none =>
          simp only [hg, hw] at hm
          rw [hm.2]
          exact .refl D _
        | some d =>
          simp only [hg, hw] at hm
          obtain ⟨hfile, hdir⟩ := FileTree.write_eq_some hw
          rw [hm.2]
          refine ⟨fun r hr => ?_, fun r hr => absurd (hdir r) hr⟩
          -- a write changes the file at its path only, and that is in `D`
          by_contra hn
          have hrq : r ≠ q := fun he => hn (he ▸ hD)
          rw [hfile, if_neg hrq] at hr
          exact hr rfl
    | perKey errs => exact hm.elim
    | fail e =>
      rw [hm.2]
      exact .refl D _
    | lost e => exact hm.elim

theorem uses_downloadKey (hD : ∀ n ∈ D, IsName n) (written : List Str) :
    (downloadKey cwd parsed (slashed D) written key).Uses (StaysIn D) := by
  by_cases hc : Copies parsed key
  swap
  · rw [downloadKey_skips written hc]
    trivial
  by_cases ha : Accepts D (target cwd D parsed key)
  swap
  · rw [downloadKey_refuses written hc ha]
    trivial
  have hbelow := ha.isPrefix hD target_names
  have hparent :
      (target cwd D parsed key).dropLast <+: D ∨ D <+: (target cwd D parsed key).dropLast :=
    List.prefix_or_prefix_of_prefix (List.dropLast_prefix _) hbelow
  have hmake : StaysIn D (.makedirs (slashed (target cwd D parsed key).dropLast)) :=
    ⟨_, fun n hn => target_names n (List.mem_of_mem_dropLast hn), rfl, hparent⟩
  have hload : StaysIn D (.downloadFile parsed.bucket key (slashed (target cwd D parsed key))) :=
    ⟨_, target_names, rfl, hbelow⟩
  rw [downloadKey_copies written hc ha]
  exact (uses_perform hmake).bind fun _ => (uses_perform hload).bind fun _ => trivial

theorem uses_downloadPrefix_staysIn (cwd uri destDir : Str) :
    (downloadPrefix cwd uri destDir).Uses (StaysIn (realComponents cwd destDir)) := by
  have hlist : (asTransfer (listPrefix uri)).Uses (StaysIn (realComponents cwd destDir)) :=
    (uses_of_forall (S := fun _ => True) (fun _ => trivial) (listPrefix uri)).lift fun _ _ =>
      trivial
  unfold downloadPrefix
  cases parseS3Uri uri with
  | error e => trivial
  | ok parsed =>
    refine hlist.bind fun keys => uses_foldlM (fun written key _ => ?_) []
    exact uses_downloadKey (realComponents_names cwd destDir) written

end Confined

section Rounds
variable {F : TransferCall → Fate → Prop} {s s' : World × Dir}
  {tr : List (Step TransferCall TransferAns Fate (World × Dir))} {r : Except PyExc (List Str)}
  {written keys : List Str}

def NothingFails (tr : List (Step TransferCall TransferAns Fate (World × Dir))) : Prop :=
  ∀ st ∈ tr, st.answer.isOk = true

/-- The keys of a listing that the loop copies. -/
def copied (parsed : ParsedS3Uri) (keys : List Key) : List Key :=
  keys.filter fun k => decide (Copies parsed k)

theorem exec_copyRound (hc : Copies parsed key) (ha : Accepts D (target cwd D parsed key))
    (hok : NothingFails tr)
    (h : Exec (Serving cwd F) (downloadKey cwd parsed (slashed D) written key) s tr r s') :
    r = .ok (written ++ [slashed (target cwd D parsed key)]) ∧
    tr.map Step.call = copyCalls cwd D parsed key := by
  have hans : ∀ {c : TransferCall} {l : Fate} {e : PyExc}
      {t : World × Dir}, ⟨c, l, .error e, t⟩ ∉ tr :=
    fun hm => by cases hok _ hm
  rw [downloadKey_copies written hc ha] at h
  rcases exec_bind.1 h with ⟨e, he, -⟩ | ⟨u, tr₁, tr₂, t₁, h₁, h₂, rfl⟩
  · obtain ⟨l, -, rfl⟩ := exec_transfer.1 he
    exact absurd List.mem_cons_self hans
  obtain ⟨l₁, -, rfl⟩ := exec_transfer.1 h₁
  rcases exec_bind.1 h₂ with ⟨e, he, -⟩ | ⟨u', tr₃, tr₄, t₂, h₃, ⟨rfl, rfl, -⟩, rfl⟩
  · obtain ⟨l, -, rfl⟩ := exec_transfer.1 he
    exact absurd (List.mem_append_right _ List.mem_cons_self) hans
  obtain ⟨l₂, -, rfl⟩ := exec_transfer.1 h₃
  exact ⟨rfl, rfl⟩

/-- Over keys that all stay in, the loop copies them in order and goes on. -/
theorem exec_copyRounds_append {before rest : List Key}
    (hin : ∀ k ∈ before, Copies parsed k → Accepts D (target cwd D parsed k))
    (hok : NothingFails tr)
    (h : Exec (Serving cwd F) ((before ++ rest).foldlM (downloadKey cwd parsed (slashed D)) written)
      s tr r s') :
    ∃ tr₁ tr₂ t, tr = tr₁ ++ tr₂ ∧
      tr₁.map Step.call = (copied parsed before).flatMap (copyCalls cwd D parsed) ∧
      Exec (Serving cwd F) (rest.foldlM (downloadKey cwd parsed (slashed D))
        (written ++ (copied parsed before).map fun k => slashed (target cwd D parsed k)))
        t tr₂ r s' := by
  induction before generalizing written s tr with
  | nil => exact ⟨[], tr, s, rfl, rfl, by simpa [copied] using h⟩
  | cons key before ih =>
    obtain ⟨hkey, hkeys⟩ := List.forall_mem_cons.1 hin
    rw [List.cons_append, List.foldlM_cons, bind_eq] at h
    by_cases hc : Copies parsed key
    · have hcop : copied parsed (key :: before) = key :: copied parsed before := by
        simp [copied, hc]
      rcases exec_bind.1 h with ⟨e, he, -⟩ | ⟨written₁, tr₁, tr₂, t, h₁, h₂, rfl⟩
      · cases (exec_copyRound hc (hkey hc) hok he).1
      obtain ⟨hw, hcalls⟩ := exec_copyRound hc (hkey hc) (fun st hst => hok st (by simp [hst])) h₁
      obtain rfl := Except.ok.inj hw
      obtain ⟨tr₃, tr₄, t', rfl, hrest, h'⟩ := ih hkeys (fun st hst => hok st (by simp [hst])) h₂
      refine ⟨tr₁ ++ tr₃, tr₄, t', by simp, ?_, ?_⟩
      · rw [hcop, List.map_append, hcalls, hrest, List.flatMap_cons]
      · rw [hcop, List.map_cons, ← List.singleton_append, ← List.append_assoc]
        exact h'
    · have hcop : copied parsed (key :: before) = copied parsed before := by simp [copied, hc]
      rw [downloadKey_skips written hc, ret_bind] at h
      rw [hcop]
      exact ih hkeys hok h

theorem exec_copyRounds (hin : ∀ k ∈ keys, Copies parsed k → Accepts D (target cwd D parsed k))
    (hok : NothingFails tr)
    (h : Exec (Serving cwd F) (keys.foldlM (downloadKey cwd parsed (slashed D)) written)
      s tr r s') :
    r = .ok (written ++ (copied parsed keys).map fun k => slashed (target cwd D parsed k)) ∧
      tr.map Step.call = (copied parsed keys).flatMap (copyCalls cwd D parsed) := by
  rw [← List.append_nil keys] at h
  obtain ⟨tr₁, tr₂, t, rfl, hcalls, rfl, rfl, -⟩ := exec_copyRounds_append hin hok h
  rw [List.append_nil]
  exact ⟨rfl, hcalls⟩

/-- The loop ends at the first key that would leave the destination, with the keys before it
copied. -/
theorem exec_copyRounds_escape {before after : List Key} (hc : Copies parsed key)
    (hesc : ¬ Accepts D (target cwd D parsed key))
    (hin : ∀ k ∈ before, Copies parsed k → Accepts D (target cwd D parsed k))
    (hok : NothingFails tr)
    (h : Exec (Serving cwd F)
      ((before ++ key :: after).foldlM (downloadKey cwd parsed (slashed D)) written) s tr r s') :
    r = .error (.escapesDest key) ∧
      tr.map Step.call = (copied parsed before).flatMap (copyCalls cwd D parsed) := by
  obtain ⟨tr₁, tr₂, t, rfl, hcalls, h'⟩ := exec_copyRounds_append hin hok h
  rw [List.foldlM_cons, bind_eq, downloadKey_refuses _ hc hesc] at h'
  obtain ⟨rfl, rfl, -⟩ := h'
  rw [List.append_nil]
  exact ⟨rfl, hcalls⟩

theorem exec_listing {uri : Str} {r : Except PyExc (List Key)} (hp : parseS3Uri uri = .ok parsed)
    (hok : NothingFails tr)
    (h : Exec (Serving cwd F) (asTransfer (listPrefix uri)) s tr r s') :
    tr.map Step.call = [.s3 (.listObjects parsed.bucket parsed.key)] ∧
      r = .ok (((s.1.s3 parsed.bucket).under parsed.key).map Prod.fst) := by
  unfold listPrefix at h
  rw [hp, ofExcept_ok, bind_eq, ret_bind] at h
  obtain ⟨l, a, t, tr', hs, rfl, h⟩ := h
  cases a with
  | error e => cases hok _ List.mem_cons_self
  | ok pages =>
    obtain ⟨rfl, rfl, -⟩ := h
    obtain ⟨-, ⟨pages', ha, hl⟩ | ⟨e, he, -⟩⟩ := serves_listObjects hs.1
    · obtain rfl := Except.ok.inj ha
      refine ⟨rfl, ?_⟩
      rw [Pages.collect_eq, hl, List.map_map]
      rfl
    · cases he

end Rounds

/-- A download writes at or below its destination only and makes no other directories than those
above it. Where no call fails, it stops at the first key that would leave the destination, with the
copied keys before it written in order, and otherwise copies all. -/
theorem download_stays_inside {F : TransferCall → Fate → Prop} {uri destDir : Str}
    {s s' : World × Dir}
    {tr : List (Step TransferCall TransferAns Fate (World × Dir))} {r : Except PyExc (List Str)}
    (hp : parseS3Uri uri = .ok parsed)
    (h : Exec (Serving cwd F) (downloadPrefix cwd uri destDir) s tr r s') :
    let dest := realComponents cwd destDir
    let keys := ((s.1.s3 parsed.bucket).under parsed.key).map Prod.fst
    let listing : TransferCall := .s3 (.listObjects parsed.bucket parsed.key)
    (∀ st ∈ tr, StaysIn dest st.call) ∧
    (DiffersIn dest s.2 s'.2 ∧ ∀ st ∈ tr, DiffersIn dest s.2 st.after.2) ∧
    (NothingFails tr →
      (∀ before key after, keys = before ++ key :: after → Copies parsed key →
        ¬ dest <+: target cwd dest parsed key →
        (∀ k ∈ before, Copies parsed k → dest <+: target cwd dest parsed k) →
        r = .error (.escapesDest key) ∧
          tr.map Step.call =
            listing :: (copied parsed before).flatMap (copyCalls cwd dest parsed)) ∧
      (dest ≠ [] → (∀ k ∈ keys, Copies parsed k → dest <+: target cwd dest parsed k) →
        r = .ok ((copied parsed keys).map fun k => slashed (target cwd dest parsed k)) ∧
          tr.map Step.call =
            listing :: (copied parsed keys).flatMap (copyCalls cwd dest parsed))) := by
  intro dest keys listing
  have hdest : ∀ n ∈ dest, IsName n := realComponents_names cwd destDir
  have hstays := Exec.of_uses (P := fun t : World × Dir => DiffersIn dest s.2 t.2)
    (uses_downloadPrefix_staysIn cwd uri destDir)
      (fun _ _ _ _ _ hc ht hs => ht.trans (hc.serving hs)) h (.refl dest s.2)
  refine ⟨fun st hst => (hstays.2 st hst).1, ⟨hstays.1, fun st hst => (hstays.2 st hst).2⟩,
    fun hok => ?_⟩
  unfold downloadPrefix at h
  rw [hp, ofExcept_ok, bind_eq, ret_bind, bind_eq] at h
  rcases exec_bind.1 h with ⟨e, he, -⟩ | ⟨keys', tr₁, tr₂, t, h₁, h₂, rfl⟩
  · cases (exec_listing hp hok he).2
  obtain ⟨hlist, hkeys⟩ := exec_listing hp (fun st hst => hok st (by simp [hst])) h₁
  obtain rfl : keys' = keys := Except.ok.inj hkeys
  have hok₂ : NothingFails tr₂ := fun st hst => hok st (by simp [hst])
  have hloop : Exec (Serving cwd F) (keys.foldlM (downloadKey cwd parsed (slashed dest)) [])
      t tr₂ r s' := h₂
  rw [List.map_append, hlist, List.singleton_append]
  constructor
  -- the test of the code agrees with being below the destination, unless that is the root
  · intro before key after hsplit hc hesc hin
    have hne : dest ≠ [] := fun he => hesc (he ▸ List.nil_prefix)
    have htest := fun k => accepts_iff (q := target cwd dest parsed k) hne hdest target_names
    rw [hsplit] at hloop
    obtain ⟨hr, hcalls⟩ := exec_copyRounds_escape hc (fun ha => hesc ((htest key).1 ha))
      (fun k hk hck => (htest k).2 (hin k hk hck)) hok₂ hloop
    exact ⟨hr, congrArg _ hcalls⟩
  · intro hne hin
    have htest := fun k => accepts_iff (q := target cwd dest parsed k) hne hdest target_names
    obtain ⟨hr, hcalls⟩ := exec_copyRounds (fun k hk hck => (htest k).2 (hin k hk hck)) hok₂ hloop
    exact ⟨hr, congrArg _ hcalls⟩

/-- A bucket with a key that leads out of the destination between two that stay inside. -/
def leadingOut : World :=
  .of ['b'] ["p/-/z".toList, "p/../x".toList, "p/w".toList] [] []

abbrev leadingOutDownload :
    List (Step TransferCall TransferAns Fate (World × Dir)) × Except PyExc (List Str) ×
      World × Dir :=
  run (serveTransfer ['/']) (downloadPrefix ['/'] "s3://b/p/".toList "/d".toList)
    (leadingOut, sampleDisk)

/-- The download copies the key before the one that leads out, and stops there. -/
theorem download_stays_inside_sample :
    ∃ (tr : _) (r : _) (s' : World × Dir),
      Exec (Serving ['/'] fun _ _ => True) (downloadPrefix ['/'] "s3://b/p/".toList "/d".toList)
        (leadingOut, sampleDisk) tr r s' ∧
      (∀ st ∈ tr, StaysIn [['d']] st.call) ∧ NothingFails tr ∧
      r = .error (.escapesDest "p/../x".toList) ∧
      tr.map Step.call = [.s3 (.listObjects ['b'] "p/".toList), .makedirs "/d/-".toList,
        .downloadFile ['b'] "p/-/z".toList "/d/-/z".toList] := by
  have h : Exec (Serving ['/'] fun _ _ => True)
      (downloadPrefix ['/'] "s3://b/p/".toList "/d".toList) (leadingOut, sampleDisk)
      leadingOutDownload.1 leadingOutDownload.2.1 leadingOutDownload.2.2 :=
    exec_run (serving_serveTransfer ['/'])
  have hok : ∀ st ∈ leadingOutDownload.1, st.answer.isOk = true := by decide +kernel
  have hp : parseS3Uri "s3://b/p/".toList = .ok ⟨['b'], "p/".toList⟩ := rfl
  have hdest : realComponents ['/'] "/d".toList = [['d']] := by decide
  have hkeys : ((leadingOut.s3 ['b']).under "p/".toList).map Prod.fst =
      ["p/-/z".toList] ++ "p/../x".toList :: ["p/w".toList] := by decide +kernel
  obtain ⟨hstays, -, hends⟩ := download_stays_inside hp h
  rw [hdest] at hstays hends
  obtain ⟨hr, hcalls⟩ := (hends hok).1 _ _ _ hkeys (by decide) (by decide +kernel)
    (by decide +kernel)
  exact ⟨_, _, _, h, hstays, hok, hr, hcalls⟩

end Accel.Model
