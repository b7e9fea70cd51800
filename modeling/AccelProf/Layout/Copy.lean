import AccelProf.Layout.Artifacts
import AccelProf.Model.Download
import AccelProf.Spec.Reference

/-! What an upload leaves below a run's prefix, and what a download makes of it in an empty
directory. -/

namespace Accel.Model
open Data Program Prog

variable {cwd : Str} {D dirs ns : List Str} {n : Str} {parsed : ParsedS3Uri} {key : Key}

def Faultless : TransferCall → Fate → Prop := fun _ l => l = .ok

section Key
variable {s s' : World × Dir} {tr : List (Step TransferCall TransferAns Fate (World × Dir))}

theorem exec_transfer {R : Service TransferCall TransferAns Fate (World × Dir)} {c : TransferCall}
    {r : TransferAns c} : Exec R (transfer c) s tr r s' ↔
    ∃ l, R s c l r s' ∧ tr = [⟨c, l, r, s'⟩] :=
  exec_perform

/-- A program of the store does in a copy what it does alone, and nothing to the machine. -/
theorem exec_asTransfer {α : Type} {F : TransferCall → Fate → Prop} {p : Action α}
    {r : Except PyExc α}
    (h : Exec (Serving cwd F) (asTransfer p) s tr r s') :
    s'.2 = s.2 ∧ ∃ tr', Exec (Serves fun c => F (.s3 c)) p s.1 tr' r s'.1 ∧
      tr.map Step.call = tr'.map fun st => .s3 st.call := by
  refine ⟨?_, exec_lift Prod.fst (fun _ _ _ _ _ hs => hs.1) h⟩
  have huses : (asTransfer p).Uses fun c => ∃ c', c = .s3 c' :=
    (uses_of_forall (fun _ => trivial) p).lift (S := fun _ => True) fun c _ => ⟨c, rfl⟩
  refine (Exec.of_uses (P := fun t : World × Dir => t.2 = s.2) huses ?_ h rfl).1
  rintro t _ l a t' ⟨c, rfl⟩ ht hs
  exact hs.2.trans ht

theorem downloadKey_eq (hD : D ≠ []) (hDn : ∀ m ∈ D, IsName m) (hdirs : ∀ m ∈ dirs, IsName m)
    (hn : IsName n)
    (written : List Str) (hkey : key = parsed.key ++ joined (dirs ++ [n])) :
    downloadKey cwd parsed (slashed D) written key =
      (transfer (.makedirs (slashed (D ++ dirs)))).bind fun _ =>
        (transfer (.downloadFile parsed.bucket key (slashed (D ++ dirs ++ [n])))).bind fun _ =>
          ret (written ++ [slashed (D ++ dirs ++ [n])]) := by
  have hnames : ∀ m ∈ dirs ++ [n], IsName m := by simpa [or_imp, forall_and, hn] using hdirs
  have hall : ∀ m ∈ D ++ dirs, IsName m := by simpa [or_imp, forall_and] using ⟨hDn, hdirs⟩
  have hdrop : key.drop parsed.key.length = joined (dirs ++ [n]) := by rw [hkey, List.drop_left]
  obtain ⟨hne, -, hlast⟩ := joined_ends (by simp) hnames
  have hlocal :
      realpath cwd (pathJoin (slashed D) (joined (dirs ++ [n]))) = slashed (D ++ dirs ++ [n]) := by
    rw [realpath_join cwd hDn (by simp) hnames, List.append_assoc]
  have hbelow : slashed D ++ ['/'] <+: slashed (D ++ dirs ++ [n]) := by
    rw [List.append_assoc, slashed_append hD (by simp)]
    exact ⟨joined (dirs ++ [n]), by simp⟩
  have hdirname : dirname (slashed (D ++ dirs ++ [n])) = slashed (D ++ dirs) :=
    dirname_slashed hall hn
  have hslashed : slashed (D ++ dirs) ≠ [] := by
    rw [slashed_eq]
    simp
  unfold downloadKey
  rw [hdrop, if_neg (not_or.2 ⟨hne, hlast⟩), hlocal, if_neg (fun h => h.2 hbelow), hdirname,
    if_neg hslashed]
  rfl

/-- One round of the download: the file is there afterwards, with the directories it needs. -/
theorem exec_downloadKey {written : List Str} {r : Except PyExc (List Str)} {obj : Obj}
    (hD : D ≠ [])
    (hDn : ∀ m ∈ D, IsName m) (hdirs : ∀ m ∈ dirs, IsName m) (hn : IsName n)
    (hkey : key = parsed.key ++ joined (dirs ++ [n]))
    (hobj : (s.1.s3 parsed.bucket).get key = some obj)
    (hfree : ∀ q, q <+: D ++ dirs → s.2.fileAt q = none)
    (hnodir : s.2.isDir (D ++ dirs ++ [n]) = false)
    (h : Exec (Serving cwd Faultless) (downloadKey cwd parsed (slashed D) written key) s tr r s') :
    r = .ok (written ++ [slashed (D ++ dirs ++ [n])]) ∧ s'.1 = s.1 ∧
      (s.2.Valid IsName → s'.2.Valid IsName) ∧
      (∀ q, s'.2.fileAt q = if q = D ++ dirs ++ [n] then some obj.body else s.2.fileAt q) ∧
      ∀ q, s'.2.isDir q = true ↔ s.2.isDir q = true ∨ q <+: D ++ dirs := by
  have hall : ∀ m ∈ D ++ dirs, IsName m := by simpa [or_imp, forall_and] using ⟨hDn, hdirs⟩
  have hnames : ∀ m ∈ D ++ dirs ++ [n], IsName m := by
    intro m hm
    rcases List.mem_append.1 hm with hm | hm
    · exact hall m hm
    · exact List.mem_singleton.1 hm ▸ hn
  rw [downloadKey_eq hD hDn hdirs hn written hkey] at h
  obtain ⟨d₁, hd₁, hvalid₁, hfile₁, hdir₁⟩ := makedirs_slashed cwd hall hfree
  have hnodir₁ : d₁.isDir (D ++ dirs ++ [n]) = false := by
    by_contra hc
    rw [Bool.not_eq_false, hdir₁, hnodir] at hc
    have hlen := (hc.resolve_left (by simp)).length_le
    simp at hlen
  have hmade : d₁.isDir (D ++ dirs) = true := (hdir₁ _).2 (.inr List.prefix_rfl)
  obtain ⟨d₂, hd₂⟩ := FileTree.exists_write (c := obj.body) hmade hnodir₁
  obtain ⟨hfile₂, hdir₂⟩ := FileTree.write_eq_some hd₂
  -- neither call finds anything in its way
  have hmakedirs :
      ∀ {tr a t}, Exec (Serving cwd Faultless)
      (transfer (.makedirs (slashed (D ++ dirs)))) s tr a t →
      a = .ok () ∧ t = (s.1, d₁) := by
    intro tr a t ht
    obtain ⟨l, ⟨rfl, hw, hm⟩, -⟩ := exec_transfer.1 ht
    obtain ⟨ht₂, ha⟩ := hm
    rw [hd₁] at ht₂ ha
    exact ⟨ha, Prod.ext hw ht₂⟩
  have hdownload : ∀ {tr a t}, Exec (Serving cwd Faultless)
      (transfer (.downloadFile parsed.bucket key (slashed (D ++ dirs ++ [n])))) (s.1, d₁) tr a t →
      a = .ok () ∧ t = (s.1, d₂) := by
    intro tr a t ht
    obtain ⟨l, ⟨rfl, hw, hm⟩, -⟩ := exec_transfer.1 ht
    simp only [Locally, Downloads, hobj, realComponents_slashed cwd hnames, hd₂] at hm
    exact ⟨hm.1, Prod.ext hw hm.2⟩
  rcases exec_bind.1 h with ⟨e, he, -⟩ | ⟨u, tr₁, tr₂, t₁, h₁, h₂, -⟩
  · cases (hmakedirs he).1
  obtain ⟨-, rfl⟩ := hmakedirs h₁
  rcases exec_bind.1 h₂ with ⟨e, he, -⟩ | ⟨u', tr₃, tr₄, t₂, h₃, h₄, -⟩
  · cases (hdownload he).1
  obtain ⟨-, rfl⟩ := hdownload h₃
  obtain ⟨-, rfl, rfl⟩ := h₄
  refine ⟨rfl, rfl, fun hv => (hvalid₁ hv).write hnames hd₂, fun q => ?_, fun q => ?_⟩
  · show d₂.fileAt q = _
    rw [hfile₂ q, hfile₁ q]
  · show d₂.isDir q = true ↔ _
    rw [hdir₂ q, hdir₁ q]

end Key

/-- A path runs through another, which would have to be a file and a directory at once. -/
def Nested (files : List (List Str × Bytes)) : Prop :=
  ∃ f ∈ files, ∃ g ∈ files, f.1 <+: g.1 ∧ f.1 ≠ g.1

instance (files : List (List Str × Bytes)) : Decidable (Nested files) :=
  inferInstanceAs (Decidable (∃ f ∈ files, ∃ g ∈ files, _))

/-- The machine after the files `done` have been copied to `D`. -/
structure Copied (D : List Str) (done : List (List Str × Bytes)) (d₀ d : Dir) : Prop where
  valid : d.Valid IsName
  copied : ∀ f ∈ done, d.fileAt (D ++ f.1) = some f.2
  others : ∀ q, (∀ f ∈ done, q ≠ D ++ f.1) → d.fileAt q = d₀.fileAt q
  dirs : ∀ q, d.isDir q = true ↔ d₀.isDir q = true ∨ ∃ f ∈ done, q <+: D ++ f.1.dropLast

section Copied
variable {done files : List (List Str × Bytes)} {d₀ d d' sub : Dir}

theorem copied_nil (h : d.Valid IsName) : Copied D [] d d :=
  ⟨h, by simp, fun _ _ => rfl, by simp⟩

theorem Copied.step {f : List Str × Bytes} (h : Copied D done d₀ d) (hnew : ∀ g ∈ done, g.1 ≠ f.1)
    (hvalid : d.Valid IsName → d'.Valid IsName)
    (hfile : ∀ q, d'.fileAt q = if q = D ++ f.1 then some f.2 else d.fileAt q)
    (hdir : ∀ q, d'.isDir q = true ↔ d.isDir q = true ∨ q <+: D ++ f.1.dropLast) :
    Copied D (done ++ [f]) d₀ d' where
  valid := hvalid h.valid
  copied := by
    intro g hg
    rcases List.mem_append.1 hg with hg | hg
    · have hne : D ++ g.1 ≠ D ++ f.1 := fun he => hnew g hg (List.append_cancel_left he)
      rw [hfile, if_neg hne, h.copied g hg]
    · rw [List.mem_singleton.1 hg, hfile, if_pos rfl]
  others := by
    intro q hq
    rw [hfile, if_neg (hq f (by simp)), h.others q fun g hg => hq g (by simp [hg])]
  dirs := by
    intro q
    rw [hdir, h.dirs]
    simp [or_and_right, exists_or, or_assoc]

/-- A file that no other path runs through finds nothing in its way. -/
theorem Copied.free {f : List Str × Bytes} (h : Copied D done d₀ d)
    (hempty : d₀.node D = some (.dir .empty))
    (hne : f.1 ≠ []) (hdone : ∀ g ∈ done, g.1 ≠ [])
    (hnest : ∀ g ∈ done, (f.1 <+: g.1 → f.1 = g.1) ∧ (g.1 <+: f.1 → g.1 = f.1))
    (hnew : ∀ g ∈ done, g.1 ≠ f.1) :
    (∀ q, q <+: D ++ f.1.dropLast → d.fileAt q = none) ∧ d.isDir (D ++ f.1) = false := by
  have hshort : ∀ {xs : List Str}, xs ≠ [] → ¬ xs <+: xs.dropLast := fun hxs hp => by
    have hle := hp.length_le
    rw [List.length_dropLast] at hle
    have := List.length_pos_of_ne_nil hxs
    omega
  constructor
  · intro q hq
    have hq' : ∀ g ∈ done, q ≠ D ++ g.1 := by
      rintro g hg rfl
      have hpre : g.1 <+: f.1 :=
        ((List.prefix_append_right_inj D).1 hq).trans (List.dropLast_prefix _)
      exact hnew g hg ((hnest g hg).2 hpre)
    rw [h.others q hq']
    rcases List.prefix_or_prefix_of_prefix hq (List.prefix_append D _) with hqD | ⟨t, rfl⟩
    · exact FileTree.fileAt_of_isDir
        (FileTree.isDir_of_prefix (FileTree.isDir_iff.2 ⟨_, hempty⟩) hqD)
    · rw [FileTree.fileAt_append hempty, FileTree.fileAt_empty]
  · by_contra hc
    rw [Bool.not_eq_false, h.dirs, FileTree.isDir_append hempty, FileTree.isDir_empty] at hc
    obtain ⟨g, hg, hp⟩ := hc.resolve_left hne
    have hp' := (List.prefix_append_right_inj D).1 hp
    have heq := (hnest g hg).1 (hp'.trans (List.dropLast_prefix _))
    rw [heq] at hp'
    exact hshort (hdone g hg) hp'

theorem Copied.files_perm (h : Copied D files d₀ d) (hempty : d₀.node D = some (.dir .empty))
    (hnd : (files.map Prod.fst).Nodup) :
    ∃ sub, d.node D = some (.dir sub) ∧ sub.files.Perm files := by
  have hD : d.isDir D = true := (h.dirs D).2 (.inl (FileTree.isDir_iff.2 ⟨_, hempty⟩))
  obtain ⟨sub, hsub⟩ := FileTree.isDir_iff.1 hD
  have hvalid := h.valid.of_node hsub
  refine ⟨sub, hsub, (List.perm_ext_iff_of_nodup (FileTree.nodup_files hvalid).of_map hnd.of_map).2
    ?_⟩
  rintro ⟨q, c⟩
  rw [FileTree.mem_files_iff hvalid, ← FileTree.fileAt_append hsub]
  constructor
  · intro hc
    by_contra hm
    have hq : ∀ f ∈ files, D ++ q ≠ D ++ f.1 := fun f hf he => hm (by
      obtain rfl := List.append_cancel_left he
      rw [h.copied f hf] at hc
      rwa [← Option.some.inj hc])
    rw [h.others _ hq, FileTree.fileAt_append hempty, FileTree.fileAt_empty] at hc
    cases hc
  · exact fun hm => h.copied _ hm

theorem not_nested_of_perm (hvalid : sub.Valid IsName)
    (h : sub.files.Perm files) : ¬ Nested files := by
  rintro ⟨f, hf, g, hg, ⟨t, ht⟩, hne⟩
  have hfile : ∀ {f}, f ∈ files → sub.fileAt f.1 = some f.2 := fun hf =>
    (FileTree.mem_files_iff hvalid).1 (h.mem_iff.2 hf)
  have ht' : t ≠ [] := by
    rintro rfl
    exact hne (by rw [← ht, List.append_nil])
  have hbelow := FileTree.fileAt_append_of_file (hfile hf) ht'
  rw [ht, hfile hg] at hbelow
  cases hbelow

end Copied

section Download
variable {files done : List (List Str × Bytes)} {d₀ : Dir} {s s' : World × Dir}
  {tr : List (Step TransferCall TransferAns Fate (World × Dir))} {r : Except PyExc (List Str)}

/-- The loop over the keys copies every file, when no path runs through another. -/
theorem exec_downloadKeys {written : List Str} (hD : D ≠ []) (hDn : ∀ m ∈ D, IsName m)
    (hempty : d₀.node D = some (.dir .empty))
    (hnames : ∀ f ∈ done ++ files, f.1 ≠ [] ∧ ∀ m ∈ f.1, IsName m)
    (hnd : ((done ++ files).map Prod.fst).Nodup) (hnest : ¬ Nested (done ++ files))
    (hobj : ∀ f ∈ files, ∃ obj,
      (s.1.s3 parsed.bucket).get (parsed.key ++ joined f.1) = some obj ∧ obj.body = f.2)
    (hc : Copied D done d₀ s.2)
    (h : Exec (Serving cwd Faultless) ((files.map fun f => parsed.key ++ joined f.1).foldlM
      (downloadKey cwd parsed (slashed D)) written) s tr r s') :
    r = .ok (written ++ files.map fun f => slashed (D ++ f.1)) ∧ s'.1 = s.1 ∧
      Copied D (done ++ files) d₀ s'.2 := by
  induction files generalizing done written s tr with
  | nil =>
    obtain ⟨-, rfl, rfl⟩ := h
    simpa using hc
  | cons f files ih =>
    have hf : f ∈ done ++ f :: files := by simp
    obtain ⟨hne, hfn⟩ := hnames f hf
    obtain ⟨dirs, n, hfd⟩ := (List.eq_nil_or_concat' f.1).resolve_left hne
    have hfn' : (∀ m ∈ dirs, IsName m) ∧ IsName n := by
      rw [hfd] at hfn
      exact ⟨fun m hm => hfn m (by simp [hm]), hfn n (by simp)⟩
    have hlast : f.1.dropLast = dirs := by rw [hfd, List.dropLast_concat]
    have hassoc : D ++ f.1 = D ++ dirs ++ [n] := by rw [hfd, List.append_assoc]
    have hnew : ∀ g ∈ done, g.1 ≠ f.1 := by
      intro g hg he
      rw [List.map_append, List.nodup_append] at hnd
      exact hnd.2.2 g.1 (List.mem_map_of_mem hg) f.1 (by simp) he
    -- no earlier file stands on the way to this one, and none is a directory of it
    obtain ⟨hfree, hnodir⟩ := hc.free hempty hne (fun g hg => (hnames g (by simp [hg])).1)
      (fun g hg => ⟨fun hp => by_contra fun he => hnest ⟨f, hf, g, by simp [hg], hp, he⟩,
        fun hp => by_contra fun he => hnest ⟨g, by simp [hg], f, hf, hp, he⟩⟩) hnew
    obtain ⟨obj, hget, hbody⟩ := hobj f (by simp)
    rw [hlast] at hfree
    rw [hassoc] at hnodir
    have hround : ∀ {tr r t}, Exec (Serving cwd Faultless)
        (downloadKey cwd parsed (slashed D) written (parsed.key ++ joined f.1)) s tr r t →
        r = .ok (written ++ [slashed (D ++ f.1)]) ∧ t.1 = s.1 ∧ Copied D (done ++ [f]) d₀ t.2 := by
      intro tr r t ht
      obtain ⟨hr, hw, hvalid, hfile, hdir⟩ :=
        exec_downloadKey hD hDn hfn'.1 hfn'.2 (by rw [hfd]) hget hfree hnodir ht
      rw [← hassoc, hbody] at hfile
      rw [← hlast] at hdir
      exact ⟨hassoc ▸ hr, hw, hc.step hnew hvalid hfile hdir⟩
    rw [List.map_cons, List.foldlM_cons, bind_eq] at h
    rcases exec_bind.1 h with ⟨e, he, -⟩ | ⟨written₁, tr₁, tr₂, t, h₁, h₂, -⟩
    · cases (hround he).1
    obtain ⟨hwr, hw, hc₁⟩ := hround h₁
    obtain rfl := Except.ok.inj hwr
    -- the rest of the keys is copied after what is done by now
    have happ : done ++ f :: files = done ++ [f] ++ files := by simp
    rw [happ] at hnames hnd hnest
    obtain ⟨hr, hw', hc'⟩ := ih hnames hnd hnest (fun g hg => by
      rw [hw]
      exact hobj g (by simp [hg])) hc₁ h₂
    refine ⟨?_, hw'.trans hw, happ ▸ hc'⟩
    rw [hr]
    simp

/-- A faithful copy: the download returns one path for each file, the destination holds the files
and nothing else, and the rest of the machine is as before. -/
structure Reproduces (D : List Str) (files : List (List Str × Bytes)) (d₀ : Dir)
    (r : Except PyExc (List Str)) (d : Dir) : Prop where
  returns : ∃ written, r = .ok written ∧ written.Perm (files.map fun f => slashed (D ++ f.1))
  holds : ∃ sub, d.node D = some (.dir sub) ∧ sub.Valid IsName ∧ sub.files.Perm files
  others : ∀ q, ¬ D <+: q → d.fileAt q = d₀.fileAt q ∧ d.isDir q = d₀.isDir q

theorem Copied.reproduces {written : List Str} (h : Copied D files d₀ s'.2)
    (hempty : d₀.node D = some (.dir .empty)) (hnd : (files.map Prod.fst).Nodup)
    (hr : r = .ok written) (hw : written = files.map fun f => slashed (D ++ f.1)) :
    Reproduces D files d₀ r s'.2 where
  returns := ⟨written, hr, hw ▸ .refl _⟩
  holds := by
    obtain ⟨sub, hsub, hperm⟩ := h.files_perm hempty hnd
    exact ⟨sub, hsub, h.valid.of_node hsub, hperm⟩
  others := by
    intro q hq
    have hout : ∀ p, q ≠ D ++ p := fun p he => hq (he ▸ List.prefix_append D p)
    refine ⟨h.others q fun f _ => hout f.1, Bool.eq_iff_iff.2 ?_⟩
    rw [h.dirs q, or_iff_left_iff_imp]
    rintro ⟨f, -, hp⟩
    have hqD := (List.prefix_or_prefix_of_prefix hp (List.prefix_append D _)).resolve_right hq
    exact FileTree.isDir_of_prefix (FileTree.isDir_iff.2 ⟨_, hempty⟩) hqD

theorem Reproduces.perm {files' : List (List Str × Bytes)} {d : Dir} (h : Reproduces D files d₀ r d)
    (hp : files.Perm files') : Reproduces D files' d₀ r d where
  returns := by
    obtain ⟨written, hr, hw⟩ := h.returns
    exact ⟨written, hr, hw.trans (hp.map _)⟩
  holds := by
    obtain ⟨sub, hsub, hvalid, hf⟩ := h.holds
    exact ⟨sub, hsub, hvalid, hf.trans hp⟩
  others := h.others

theorem Nested.perm {files' : List (List Str × Bytes)} (h : Nested files) (hp : files.Perm files') :
    Nested files' := by
  obtain ⟨f, hf, g, hg, hfg⟩ := h
  exact ⟨f, hp.mem_iff.1 hf, g, hp.mem_iff.1 hg, hfg⟩

end Download

section Upload
variable {F : Call → Fate → Prop} {w w₁ : World} {tr : List (Step Call Ans Fate World)}
  {b aliasName runId : Str} {artifacts : Option (List Str)} {up : Uploaded}

theorem exec_uploadArtifacts_ok {lfs : LocalFs}
    (h : Exec (Serves F) (uploadArtifacts lfs b aliasName runId artifacts) w tr (.ok up) w₁) :
    up.uri = artifactsUri b aliasName runId ∧ ∃ planned,
      planArtifacts lfs (runPrefix aliasName runId) (artifacts.getD []) = .ok planned ∧
      Touches b (· ∈ planned.map Prod.snd) w w₁ ∧ ∀ f ∈ planned, Holds lfs b f.1 f.2 w₁ := by
  unfold uploadArtifacts at h
  cases hplan : planArtifacts lfs (runPrefix aliasName runId) (artifacts.getD []) with
  | error e =>
    rw [hplan] at h
    cases h.2.1
  | ok planned =>
    rw [hplan] at h
    have hbody : Exec (Serves F) ((uploadPlanned lfs b planned []).bind fun objects =>
        ret (Uploaded.mk (artifactsUri b aliasName runId) objects objects.length)) w tr
          (.ok up) w₁ := h
    obtain ⟨objects, tr₁, tr₂, w₂, h₁, ⟨-, hup, rfl⟩, -⟩ := exec_bind_ok.1 hbody
    obtain rfl := Except.ok.inj hup
    have huses := uses_uploadPlanned (b := b) (S := (· ∈ planned.map Prod.snd)) lfs
      (fun f hf => List.mem_map_of_mem hf) []
    exact ⟨rfl, planned, rfl, (exec_uploadCalls huses h₁).1,
      exec_uploadPlanned_ok (planArtifacts_ok hplan).1 h₁⟩

/-- Below an empty prefix stand exactly the uploaded objects. -/
theorem under_perm {lfs : LocalFs} {pre : Key} {planned : List (Str × Key)}
    (hempty : ∀ k ∈ w.s3 b, ¬ pre <+: k) (hplan : IsPlan pre planned)
    (ht : Touches b (· ∈ planned.map Prod.snd) w w₁) (hh : ∀ f ∈ planned, Holds lfs b f.1 f.2 w₁) :
    (((w₁.s3 b).under pre).map fun e => (e.1, e.2.body)).Perm
      (planned.map fun f => (f.2, lfs.read f.1)) := by
  have hkeys : (((w₁.s3 b).under pre).map Prod.fst).Nodup :=
    (w₁.s3 b).keys_nodup.sublist (List.filter_sublist.map Prod.fst)
  have hnd₁ : (((w₁.s3 b).under pre).map fun e => (e.1, e.2.body)).Nodup := by
    refine List.Nodup.of_map Prod.fst ?_
    rw [List.map_map]
    exact hkeys
  have hnd₂ : (planned.map fun f => (f.2, lfs.read f.1)).Nodup := by
    refine List.Nodup.of_map Prod.fst ?_
    rw [List.map_map]
    exact hplan.1
  refine (List.perm_ext_iff_of_nodup hnd₁ hnd₂).2 fun x => ?_
  rw [List.mem_map, List.mem_map]
  constructor
  · rintro ⟨e, he, rfl⟩
    obtain ⟨he, hpre⟩ := Bucket.mem_under.1 he
    have hin : e.1 ∈ planned.map Prod.snd := by
      by_contra hn
      exact hempty e.1 (SortedMap.mem_of_entry ((ht.keys e hn).1 he)) hpre
    obtain ⟨f, hf, hk⟩ := List.mem_map.1 hin
    obtain ⟨t, hobj⟩ := hh f hf
    have := SortedMap.entry_unique he hobj hk.symm
    exact ⟨f, hf, by rw [this]⟩
  · rintro ⟨f, hf, rfl⟩
    obtain ⟨t, hobj⟩ := hh f hf
    exact ⟨_, Bucket.mem_under.2 ⟨hobj, hplan.2 f hf⟩, rfl⟩

theorem exists_perm_of_map {α β : Type} {f : α → β} {ys : List β} {xs : List α}
    (h : ys.Perm (xs.map f)) :
    ∃ xs' : List α, ys = xs'.map f ∧ xs'.Perm xs := by
  have hcomp : (fun l l' => l.Perm (l'.map f)) ys xs := h
  rw [← List.eq_map_comp_perm f] at hcomp
  exact hcomp

/-- An upload into an empty prefix leaves the source files there, in the order of their keys. -/
theorem exec_upload_files {fs : FileSystem}
    (hempty : ∀ k ∈ w.s3 b, ¬ runPrefix aliasName runId <+: k)
    (h : Exec (Serves F) (uploadArtifacts fs.toLocalFs b aliasName runId artifacts) w tr
      (.ok up) w₁) :
    up.uri = artifactsUri b aliasName runId ∧ ∃ files :
    List (List Str × Bytes), files.Perm (fs.sourceFiles (artifacts.getD [])) ∧
      (files.map Prod.fst).Nodup ∧
      ((w₁.s3 b).under (runPrefix aliasName runId)).map Prod.fst =
        files.map (fun f => runPrefix aliasName runId ++ joined f.1) ∧
      ∀ f ∈ files, ∃ obj, (w₁.s3 b).get (runPrefix aliasName runId ++ joined f.1) = some obj ∧
        obj.body = f.2 := by
  obtain ⟨huri, planned, hplan, ht, hh⟩ := exec_uploadArtifacts_ok h
  have hperm := under_perm hempty (planArtifacts_ok hplan) ht hh
  rw [planArtifacts_map hplan] at hperm
  obtain ⟨files, hfiles, hsource⟩ := exists_perm_of_map hperm
  have hfst := congrArg (List.map Prod.fst) hfiles
  simp only [List.map_map, Function.comp_def] at hfst
  have hkeys : (((w₁.s3 b).under (runPrefix aliasName runId)).map Prod.fst).Nodup :=
    (w₁.s3 b).keys_nodup.sublist (List.filter_sublist.map Prod.fst)
  refine ⟨huri, files, hsource, ?_, hfst, fun f hf => ?_⟩
  · have hnd : (files.map fun f => runPrefix aliasName runId ++ joined f.1).Nodup := hfst ▸ hkeys
    refine List.Nodup.of_map (fun p => runPrefix aliasName runId ++ joined p) ?_
    rw [List.map_map]
    exact hnd
  · have hm : (runPrefix aliasName runId ++ joined f.1, f.2) ∈
        ((w₁.s3 b).under (runPrefix aliasName runId)).map fun e => (e.1, e.2.body) := by
      rw [hfiles]
      exact List.mem_map_of_mem hf
    obtain ⟨e, he, hx⟩ := List.mem_map.1 hm
    obtain ⟨he, -⟩ := Bucket.mem_under.1 he
    obtain ⟨hk, hbody⟩ := Prod.mk.inj hx
    exact ⟨e.2, SortedMap.get_eq_some.2 (hk ▸ he), hbody⟩

theorem sourceFiles_names {fs : FileSystem} {artifacts : List Str} {f : List Str × Bytes}
    (h : f ∈ fs.sourceFiles artifacts) : f.1 ≠ [] ∧ ∀ n ∈ f.1, IsName n := by
  obtain ⟨p, -, hf⟩ := List.mem_flatMap.1 h
  exact artifactFiles_names hf

end Upload

/-- Download undoes upload exactly when no uploaded path runs through another. -/
theorem download_reproduces_iff {fs : FileSystem} {b : BucketName} {aliasName runId destDir : Str}
    {artifacts : Option (List Str)} {F : Call → Fate → Prop} {w w₁ : World} {up : Uploaded}
    {tr : List (Step Call Ans Fate World)} {disk : Dir} {s' : World × Dir}
    {r : Except PyExc (List Str)}
    {tr' : List (Step TransferCall TransferAns Fate (World × Dir))}
    (ha : safeIdBody aliasName = true) (hid : isRunId runId = true)
    (hempty : ∀ k ∈ w.s3 b.name, ¬ runPrefix aliasName runId <+: k)
    (hup : Exec (Serves F) (uploadArtifacts fs.toLocalFs b.name aliasName runId artifacts) w tr
      (.ok up) w₁)
    (hdisk : disk.Valid IsName) (hroot : realComponents cwd destDir ≠ [])
    (hdest : disk.node (realComponents cwd destDir) = some (.dir .empty))
    (hdown : Exec (Serving cwd Faultless) (downloadPrefix cwd up.uri destDir) (w₁, disk) tr' r s') :
    Reproduces (realComponents cwd destDir) (fs.sourceFiles (artifacts.getD [])) disk r s'.2 ↔
      ¬ Nested (fs.sourceFiles (artifacts.getD [])) := by
  constructor
  · intro h
    obtain ⟨sub, -, hvalid, hperm⟩ := h.holds
    exact not_nested_of_perm hvalid hperm
  intro hnest
  obtain ⟨huri, files, hperm, hnd, hkeys, hobj⟩ := exec_upload_files hempty hup
  obtain ⟨hne, hplain⟩ := plain_of_safeIdBody ha
  have hparse := parse_artifactsUri hplain (plain_of_isRunId hid) b hne
  rw [← huri] at hparse
  unfold downloadPrefix at hdown
  rw [hparse, ofExcept_ok, bind_eq, ret_bind, bind_eq] at hdown
  -- nothing fails, so the listing is that of the bucket
  have hlists : ListsOk fun c => Faultless (.s3 c) := ⟨fun _ _ _ h => h, fun _ _ _ h => h⟩
  have hlist : ∀ {tr r t}, Exec (Serving cwd Faultless) (asTransfer (listPrefix up.uri))
      (w₁, disk) tr r t →
      t = (w₁, disk) ∧
        r = .ok (((w₁.s3 b.name).under (runPrefix aliasName runId)).map Prod.fst) := by
    intro tr r t ht
    obtain ⟨hd, tr₁, ht, -⟩ := exec_asTransfer ht
    obtain ⟨hw, hr⟩ := exec_listPrefix hparse ht
    exact ⟨Prod.ext hw hd, hr.resolve_right fun h => h.1 hlists⟩
  rcases exec_bind.1 hdown with ⟨e, he, -⟩ | ⟨keys, tr₁, tr₂, t, h₁, h₂, -⟩
  · cases (hlist he).2
  obtain ⟨rfl, hk⟩ := hlist h₁
  obtain rfl := (Except.ok.inj hk).trans hkeys
  have hnest' : ¬ Nested files := fun hn => hnest (hn.perm hperm)
  have hnd' : (([] ++ files).map Prod.fst).Nodup := hnd
  obtain ⟨hr, -, hc⟩ := exec_downloadKeys hroot (realComponents_names cwd destDir) hdest
    (fun f hf => sourceFiles_names (hperm.mem_iff.1 hf)) hnd' hnest' hobj (copied_nil hdisk) h₂
  exact (hc.reproduces hdest hnd hr rfl).perm hperm

section Sample

def DownloadCall : TransferCall → Prop
  | .s3 (.listObjects ..) => True
  | .makedirs _ => True
  | .downloadFile .. => True
  | _ => False

theorem uses_downloadPrefix (cwd uri destDir : Str) :
    (downloadPrefix cwd uri destDir).Uses DownloadCall := by
  have hlist : (asTransfer (listPrefix uri)).Uses DownloadCall := by
    have : (listPrefix uri).Uses fun c => ∃ b pre, c = .listObjects b pre :=
      (uses_ofExcept _).bind fun p => (uses_request ⟨_, _, rfl⟩).bind fun _ => trivial
    refine this.lift ?_
    rintro c ⟨b, pre, rfl⟩
    trivial
  unfold downloadPrefix
  cases parseS3Uri uri with
  | error e => trivial
  | ok parsed =>
    refine hlist.bind fun keys => uses_foldlM (fun written key _ => ?_) []
    unfold downloadKey
    simp only
    split_ifs
    · trivial
    · trivial
    · exact (uses_perform trivial).bind fun _ => (uses_perform trivial).bind fun _ => trivial
    · exact (uses_perform trivial).bind fun _ => (uses_perform trivial).bind fun _ => trivial

/-- Where nothing fails, every download comes to an end. -/
theorem exec_downloadPrefix_exists (cwd uri destDir : Str) (s : World × Dir) :
    ∃ tr r s', Exec (Serving cwd Faultless) (downloadPrefix cwd uri destDir) s tr r s' := by
  refine exec_exists (uses_downloadPrefix cwd uri destDir) (fun s c hc => ?_) s
  cases c with
  | s3 c =>
    cases c with
    | listObjects b pre => exact ⟨.ok, _, s, ⟨⟨rfl, rfl, .last _, rfl, rfl⟩, rfl⟩⟩
    | _ => exact hc.elim
  | makedirs p => exact ⟨.ok, _, (s.1, (makedirs cwd p s.2).1), rfl, rfl, rfl, rfl⟩
  | downloadFile b key p =>
    cases hg : (s.1.s3 b).get key with
    | none => exact ⟨.ok, .error keyMissing, s, rfl, rfl, by simp [Locally, Downloads, hg]⟩
    | some obj =>
      cases hw : s.2.write obj.body (realComponents cwd p) with
      | none => exact ⟨.ok, .error (.osError p), s, rfl, rfl, by simp [Locally, Downloads, hg, hw]⟩
      | some d => exact ⟨.ok, .ok (), (s.1, d), rfl, rfl, by simp [Locally, Downloads, hg, hw]⟩

/-- The reference services, with a machine where a call fails only when something is in its way. -/
def serveTransfer (cwd : Str) (s : World × Dir) :
    (c : TransferCall) → Fate × TransferAns c × (World × Dir)
  | .s3 c =>
    let out := serve (fun _ => .ok) s.1 c
    (out.1, out.2.1, (out.2.2, s.2))
  | .makedirs p =>
    (.ok, if (makedirs cwd p s.2).2 then .ok () else .error (.osError p),
      (s.1, (makedirs cwd p s.2).1))
  | .downloadFile b key p => match (s.1.s3 b).get key with
    | none => (.ok, .error keyMissing, s)
    | some obj => match s.2.write obj.body (realComponents cwd p) with
      | none => (.ok, .error (.osError p), s)
      | some d => (.ok, .ok (), (s.1, d))

theorem serving_serveTransfer (cwd : Str) (s : World × Dir) (c : TransferCall) :
    Serving cwd (fun _ _ => True) s c (serveTransfer cwd s c).1 (serveTransfer cwd s c).2.1
      (serveTransfer cwd s c).2.2 := by
  cases c with
  | s3 c => exact ⟨serves_serve trivial, rfl⟩
  | makedirs p => exact ⟨trivial, rfl, rfl, rfl⟩
  | downloadFile b key p =>
    cases hg : (s.1.s3 b).get key with
    | none => simp [serveTransfer, Serving, Locally, Downloads, hg]
    | some obj =>
      cases hw : s.2.write obj.body (realComponents cwd p) <;>
        simp [serveTransfer, Serving, Locally, Downloads, hg, hw]

/-- A machine with the files `/a/x`, `/b/x/y`, `/t/p`, `/t/q/r` and `/t/q/s`. -/
def sampleMachine : FileSystem where
  root := .dir ['a'] (.file ['x'] [1] .empty) <|
    .dir ['b'] (.dir ['x'] (.file ['y'] [2] .empty) .empty) <|
    .dir ['t'] (.dir ['q'] (.file ['r'] [4] (.file ['s'] [5] .empty)) (.file ['p'] [3] .empty))
      .empty
  cwd := []
  valid := by decide
  cwd_isDir := rfl
  sha256 := fun _ => ([], [])

def sampleDisk : Dir := .dir ['d'] .empty .empty

abbrev sampleUpload (artifacts : List Str) : Action Uploaded :=
  uploadArtifacts sampleMachine.toLocalFs ['b'] ['a'] (sampleRunId '0') (some artifacts)

def emptyWorld : World := World.of ['b'] [] [] []

theorem exec_sampleUpload (artifacts : List Str)
    (h : (simulate (fun _ => .ok) (sampleUpload artifacts) emptyWorld).2.1.isOk = true) :
    ∃ tr up w₁,
      Exec (Serves fun _ _ => True) (sampleUpload artifacts) emptyWorld tr (.ok up) w₁ :=
  exec_of_isOk (fun _ _ => trivial) h

end Sample

theorem download_reproduces_iff_sample :
    ∃ (up : Uploaded) (w₁ : World) (tr : _) (r : _) (s' : World × Dir),
    Exec (Serving ['/'] Faultless) (downloadPrefix ['/'] up.uri "/d".toList)
      (w₁, sampleDisk) tr r s' ∧
    Reproduces [['d']] [([['x']], [1]), ([['p']], [3]), ([['q'], ['r']], [4]),
      ([['q'], ['s']], [5])] sampleDisk r s'.2 := by
  obtain ⟨tr, up, w₁, hup⟩ := exec_sampleUpload ["/a".toList, "/t".toList] (by decide +kernel)
  obtain ⟨tr', r, s', hdown⟩ := exec_downloadPrefix_exists ['/'] up.uri "/d".toList (w₁, sampleDisk)
  have hroot : realComponents ['/'] "/d".toList = [['d']] := by decide
  have hdest : sampleDisk.node [['d']] = some (.dir .empty) := rfl
  have hfiles : sampleMachine.sourceFiles ["/a".toList, "/t".toList] = [([['x']], [1]),
      ([['p']], [3]), ([['q'], ['r']], [4]), ([['q'], ['s']], [5])] := by decide +kernel
  have hiff := download_reproduces_iff (b := sampleBucket) (by decide) (by decide) (by decide) hup
    (by decide) (by rw [hroot]; simp) (hroot ▸ hdest) hdown
  rw [hroot, Option.getD_some, hfiles] at hiff
  exact ⟨up, w₁, tr', r, s', hdown, hiff.2 (by decide)⟩

/-- `/a` and `/b` upload to the keys `x` and `x/y`, which no directory holds at once. -/
theorem download_loses_nested :
    ∃ (tr : _) (up : Uploaded) (w₁ : World) (tr' : _) (r : _) (s' : World × Dir),
    Exec (Serves fun _ _ => True) (sampleUpload ["/a".toList, "/b".toList]) emptyWorld tr
      (.ok up) w₁ ∧
    Exec (Serving ['/'] Faultless) (downloadPrefix ['/'] up.uri "/d".toList)
    (w₁, sampleDisk) tr' r s' ∧
      ¬ Reproduces [['d']] (sampleMachine.sourceFiles ["/a".toList, "/b".toList]) sampleDisk r
        s'.2 := by
  obtain ⟨tr, up, w₁, hup⟩ := exec_sampleUpload ["/a".toList, "/b".toList] (by decide +kernel)
  obtain ⟨tr', r, s', hdown⟩ := exec_downloadPrefix_exists ['/'] up.uri "/d".toList (w₁, sampleDisk)
  have hnest : Nested (sampleMachine.sourceFiles ["/a".toList, "/b".toList]) := by decide
  refine ⟨tr, up, w₁, tr', r, s', hup, hdown, fun h => ?_⟩
  obtain ⟨sub, -, hvalid, hperm⟩ := h.holds
  exact not_nested_of_perm hvalid hperm hnest

end Accel.Model
