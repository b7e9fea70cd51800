import AccelProf.Platform.Publication

/-! A consumer's copy of a run: whatever happened since the run was logged, a download brings the
producer's files, and the retention marker of a run that was held. -/

namespace Accel.Model
open Data Program Prog

variable {w : World} {b : Str} {pre uri cwd : Str} {ref : RunRef} {D : List Str} {disk : Dir}
  {files expected : List (List Str × Bytes)} {s' : World × Dir} {r : Except PyExc (List Str)}
  {tr : List (Step TransferCall TransferAns Fate (World × Dir))}

section Copy

theorem joined_inj {p q : List Str} (hp : p ≠ [] ∧ ∀ n ∈ p, IsName n)
    (hq : q ≠ [] ∧ ∀ n ∈ q, IsName n) (h : joined p = joined q) : p = q := by
  rw [← splitOn_joined hp.1 fun n hn => (hp.2 n hn).slash_not_mem, h,
    splitOn_joined hq.1 fun n hn => (hq.2 n hn).slash_not_mem]

/-- Where the files below a prefix are known by name, so are the objects. -/
theorem under_perm_of_files
    (hnames : ∀ f ∈ expected, f.1 ≠ [] ∧ ∀ n ∈ f.1, IsName n)
    (hnd : (expected.map Prod.fst).Nodup)
    (hfiles : ∀ name c, ((w.s3 b).get (pre ++ name)).map Obj.body = some c ↔
      ∃ f ∈ expected, joined f.1 = name ∧ f.2 = c) :
    (((w.s3 b).under pre).map fun e => (e.1, e.2.body)).Perm
      (expected.map fun f => (pre ++ joined f.1, f.2)) := by
  have hnd₁ : (((w.s3 b).under pre).map fun e => (e.1, e.2.body)).Nodup := by
    apply List.Nodup.of_map Prod.fst
    rw [List.map_map]
    exact (w.s3 b).keys_nodup.sublist (List.filter_sublist.map Prod.fst)
  have hnd₂ : (expected.map fun f => (pre ++ joined f.1, f.2)).Nodup := by
    apply List.Nodup.map_on _ hnd.of_map
    intro f hf g hg heq
    obtain ⟨hkey, hbody⟩ := Prod.mk.inj heq
    have hpath := joined_inj (hnames f hf) (hnames g hg) (List.append_cancel_left hkey)
    exact Prod.ext hpath hbody
  apply (List.perm_ext_iff_of_nodup hnd₁ hnd₂).2
  rintro ⟨k, c⟩
  rw [List.mem_map, List.mem_map]
  constructor
  · rintro ⟨e, he, heq⟩
    obtain ⟨he, name, hk⟩ := Bucket.mem_under.1 he
    obtain ⟨rfl, rfl⟩ := Prod.mk.inj heq
    have hget : ((w.s3 b).get (pre ++ name)).map Obj.body = some e.2.body := by
      rw [hk, SortedMap.get_eq_some.2 he]
      rfl
    obtain ⟨f, hf, hname, hbody⟩ := (hfiles name e.2.body).1 hget
    exact ⟨f, hf, by rw [hname, hk, hbody]⟩
  · rintro ⟨f, hf, heq⟩
    obtain ⟨rfl, rfl⟩ := Prod.mk.inj heq
    obtain ⟨obj, hget, hbody⟩ := Option.map_eq_some_iff.1 ((hfiles _ _).2 ⟨f, hf, rfl, rfl⟩)
    exact ⟨(_, obj), Bucket.mem_under.2 ⟨SortedMap.get_eq_some.1 hget, List.prefix_append _ _⟩,
      by rw [hbody]⟩

/-- Making a directory that is there changes nothing that can be seen. -/
theorem exec_makedirs_there {a : Except PyExc Unit} (hDn : ∀ n ∈ D, IsName n)
    (hdir : disk.isDir D = true)
    (h : Exec (Serving cwd Faultless) (transfer (.makedirs (slashed D))) (w, disk) tr a s') :
    a = .ok () ∧ s'.1 = w ∧ (disk.Valid IsName → s'.2.Valid IsName) ∧
      (∀ q, s'.2.fileAt q = disk.fileAt q) ∧ ∀ q, s'.2.isDir q = disk.isDir q := by
  have hfree : ∀ q, q <+: D → disk.fileAt q = none := fun q hq =>
    FileTree.fileAt_of_isDir (FileTree.isDir_of_prefix hdir hq)
  obtain ⟨d', hd', hvalid, hfile, hisDir⟩ := makedirs_slashed cwd hDn hfree
  obtain ⟨l, ⟨rfl, hw, hm⟩, -⟩ := exec_transfer.1 h
  obtain ⟨hs, ha⟩ := hm
  rw [hd'] at hs ha
  have hs : s'.2 = d' := hs
  refine ⟨ha, hw, fun hv => hs ▸ hvalid hv, fun q => by rw [hs, hfile], fun q => ?_⟩
  rw [hs, Bool.eq_iff_iff, hisDir]
  exact or_iff_left_of_imp fun hq => FileTree.isDir_of_prefix hdir hq

/-- A download of the files below a place into an empty directory. -/
theorem exec_download_files (huri : ref.artifactsUri = some uri) (hne : uri ≠ [])
    (hp : parseS3Uri uri = .ok ⟨b, pre⟩) (hD : D ≠ []) (hDn : ∀ n ∈ D, IsName n)
    (hdisk : disk.Valid IsName) (hdest : disk.node D = some (.dir .empty))
    (hnames : ∀ f ∈ expected, f.1 ≠ [] ∧ ∀ n ∈ f.1, IsName n)
    (hnd : (expected.map Prod.fst).Nodup) (hnest : ¬ Nested expected)
    (hfiles : ∀ name c, w.filesOf ref name = some c ↔ ∃ f ∈ expected, joined f.1 = name ∧ f.2 = c)
    (h : Exec (Serving cwd Faultless) (download cwd ref (slashed D)) (w, disk) tr r s') :
    Reproduces D expected disk r s'.2 := by
  rw [filesOf_parsed huri hp] at hfiles
  obtain ⟨files, hkeys, hperm⟩ := exists_perm_of_map (under_perm_of_files hnames hnd hfiles)
  have hfst := congrArg (List.map Prod.fst) hkeys
  simp only [List.map_map, Function.comp_def] at hfst
  have hdir : disk.isDir D = true := FileTree.isDir_iff.2 ⟨_, hdest⟩
  have hgetD : ref.artifactsUri.getD [] = uri := by rw [huri, Option.getD_some]
  unfold download at h
  simp only [hgetD, if_neg hne] at h
  rcases exec_bind.1 h with ⟨e, he, -⟩ | ⟨u, tr₁, tr₂, t, h₁, h₂, -⟩
  · cases (exec_makedirs_there hDn hdir he).1
  obtain ⟨-, hw, hvalid, hfileAt, hisDir⟩ := exec_makedirs_there hDn hdir h₁
  obtain ⟨w₁, d₁⟩ := t
  obtain rfl : w₁ = w := hw
  have hdest₁ : d₁.node D = some (.dir .empty) := by
    apply FileTree.node_empty
    · rw [hisDir, hdir]
    · intro q hq
      rw [hfileAt, FileTree.fileAt_append hdest, FileTree.fileAt_empty]
    · intro q hq
      rw [hisDir, FileTree.isDir_append hdest, FileTree.isDir_empty]
      exact hq
  -- the listing shows the files in the order of their keys
  unfold downloadPrefix at h₂
  rw [hp, ofExcept_ok, bind_eq, ret_bind, bind_eq] at h₂
  have hlists : ListsOk fun c => Faultless (.s3 c) := ⟨fun _ _ _ h => h, fun _ _ _ h => h⟩
  have hlist : ∀ {tr r t}, Exec (Serving cwd Faultless) (asTransfer (listPrefix uri))
      (w₁, d₁) tr r t → t = (w₁, d₁) ∧ r = .ok (((w₁.s3 b).under pre).map Prod.fst) := by
    intro tr r t ht
    obtain ⟨hd, tr₃, ht, -⟩ := exec_asTransfer ht
    obtain ⟨hw, hr⟩ := exec_listPrefix hp ht
    exact ⟨Prod.ext hw hd, hr.resolve_right fun h => h.1 hlists⟩
  rcases exec_bind.1 h₂ with ⟨e, he, -⟩ | ⟨keys, tr₃, tr₄, t, h₃, h₄, -⟩
  · cases (hlist he).2
  obtain ⟨rfl, hk⟩ := hlist h₃
  obtain rfl := (Except.ok.inj hk).trans hfst
  have hroot : realpath cwd (slashed D) = slashed D := by
    rw [realpath, realComponents_slashed cwd hDn]
  rw [hroot] at h₄
  have hnd' : (([] ++ files).map Prod.fst).Nodup := (hperm.map Prod.fst).nodup_iff.2 hnd
  have hobj : ∀ f ∈ files, ∃ obj,
      (w₁.s3 b).get (pre ++ joined f.1) = some obj ∧ obj.body = f.2 := by
    intro f hf
    exact Option.map_eq_some_iff.1 ((hfiles _ _).2 ⟨f, hperm.mem_iff.1 hf, rfl, rfl⟩)
  obtain ⟨hr, -, hc⟩ := exec_downloadKeys hD hDn hdest₁
    (fun f hf => hnames f (hperm.mem_iff.1 hf)) hnd' (fun hn => hnest (hn.perm hperm)) hobj
    (copied_nil (hvalid hdisk)) h₄
  have hrep := (hc.reproduces hdest₁ hnd' hr rfl).perm hperm
  refine ⟨hrep.returns, hrep.holds, fun q hq => ?_⟩
  rw [← hfileAt, ← hisDir]
  exact hrep.others q hq

end Copy

section Delivery
variable {store : Store} {fs : FileSystem} {args : LogArgs} {id : Str}
  {e : Entry RunRef Str Bytes}

/-- The source files with the retention marker of the run. -/
def withMarker (files : List (List Str × Bytes)) : List (List Str × Bytes) :=
  ([retentionMarker], []) :: files.filter fun f => f.1 ≠ [retentionMarker]

theorem isName_retentionMarker : IsName retentionMarker := by
  refine ⟨by decide, by decide, by decide, by decide⟩

/-- What a run under a documented alias publishes are the source files. -/
theorem Publishes.files_iff (h : Publishes store fs.toLocalFs args id e)
    (ha : safeIdBody args.identity.aliasName = true) (hid : isRunId id = true) :
    ((fs.sourceFiles (args.artifacts.getD [])).map Prod.fst).Nodup ∧ ∀ name c,
      e.files name = some c ↔
        ∃ f ∈ fs.sourceFiles (args.artifacts.getD []), joined f.1 = name ∧ f.2 = c := by
  obtain ⟨planned, p, hplan, hp, hfiles⟩ := h.files
  rw [Model.parse_uri ha hid] at hp
  obtain rfl := Except.ok.inj hp
  have hmap := planArtifacts_map hplan
  have hnd := (planArtifacts_ok hplan).1
  constructor
  · have hkeys := congrArg (List.map Prod.fst) hmap
    simp only [List.map_map, Function.comp_def] at hkeys
    apply List.Nodup.of_map fun q => args.pre id ++ joined q
    rw [List.map_map]
    show ((fs.sourceFiles (args.artifacts.getD [])).map
      fun f => args.pre id ++ joined f.1).Nodup
    rw [← hkeys]
    exact hnd
  · intro name c
    rw [hfiles]
    constructor
    · rintro ⟨path, hf, rfl⟩
      have hm : (args.pre id ++ name, fs.toLocalFs.read path) ∈
          planned.map fun f => (f.2, fs.toLocalFs.read f.1) :=
        List.mem_map.2 ⟨(path, args.pre id ++ name), hf, rfl⟩
      rw [hmap] at hm
      obtain ⟨f, hf, heq⟩ := List.mem_map.1 hm
      obtain ⟨hkey, hbody⟩ := Prod.mk.inj heq
      exact ⟨f, hf, List.append_cancel_left hkey, hbody⟩
    · rintro ⟨f, hf, rfl, rfl⟩
      have hm : (args.pre id ++ joined f.1, f.2) ∈
          planned.map fun f => (f.2, fs.toLocalFs.read f.1) := by
        rw [hmap]
        exact List.mem_map.2 ⟨f, hf, rfl⟩
      obtain ⟨⟨path, key⟩, hg, heq⟩ := List.mem_map.1 hm
      obtain ⟨rfl, hbody⟩ := Prod.mk.inj heq
      exact ⟨path, hg, hbody⟩

theorem joined_eq_marker {q : List Str} (hq : q ≠ [] ∧ ∀ n ∈ q, IsName n) :
    joined q = retentionMarker ↔ q = [retentionMarker] := by
  constructor
  · intro h
    apply joined_inj hq ⟨by simp, by simp [isName_retentionMarker]⟩
    rw [h, joined_singleton]
  · rintro rfl
    exact joined_singleton _

theorem mem_withMarker (hnames : ∀ f ∈ files, f.1 ≠ [] ∧ ∀ n ∈ f.1, IsName n) {name : Str}
    {c : Bytes} : (∃ f ∈ withMarker files, joined f.1 = name ∧ f.2 = c) ↔
      if name = retentionMarker then c = [] else ∃ f ∈ files, joined f.1 = name ∧ f.2 = c := by
  unfold withMarker
  simp only [List.exists_mem_cons_iff, joined_singleton, List.mem_filter, decide_eq_true_eq]
  split_ifs with hname
  · subst hname
    constructor
    · rintro (⟨-, rfl⟩ | ⟨f, ⟨hf, hne⟩, hj, -⟩)
      · rfl
      · exact absurd ((joined_eq_marker (hnames f hf)).1 hj) hne
    · rintro rfl
      exact .inl ⟨rfl, rfl⟩
  · constructor
    · rintro (⟨rfl, -⟩ | ⟨f, ⟨hf, -⟩, hj, hc⟩)
      · exact absurd rfl hname
      · exact ⟨f, hf, hj, hc⟩
    · rintro ⟨f, hf, rfl, rfl⟩
      refine .inr ⟨f, ⟨hf, fun he => hname ?_⟩, rfl, rfl⟩
      exact (joined_eq_marker (hnames f hf)).2 he

theorem nodup_withMarker (h : (files.map Prod.fst).Nodup) :
    ((withMarker files).map Prod.fst).Nodup := by
  rw [withMarker, List.map_cons, List.nodup_cons]
  constructor
  · intro hm
    obtain ⟨f, hf, heq⟩ := List.mem_map.1 hm
    have hne := (List.mem_filter.1 hf).2
    rw [decide_eq_true_eq] at hne
    exact hne heq
  · exact h.sublist (List.filter_sublist.map Prod.fst)

theorem nested_of_paths (h : ∀ f ∈ files, ∃ g ∈ expected, g.1 = f.1) (hn : Nested files) :
    Nested expected := by
  obtain ⟨f, hf, g, hg, hpre, hne⟩ := hn
  obtain ⟨f', hf', heqf⟩ := h f hf
  obtain ⟨g', hg', heqg⟩ := h g hg
  rw [← heqf, ← heqg] at hpre hne
  exact ⟨f', hf', g', hg', hpre, hne⟩

theorem paths_withMarker (f : List Str × Bytes) (hf : f ∈ files) :
    ∃ g ∈ withMarker files, g.1 = f.1 := by
  by_cases hm : f.1 = [retentionMarker]
  · exact ⟨_, List.mem_cons_self .., hm.symm⟩
  · exact ⟨f, List.mem_cons_of_mem _ (List.mem_filter.2 ⟨hf, decide_eq_true hm⟩), rfl⟩

/-- The files are the producer's, or these with the retention marker. -/
def Kept (fs : FileSystem) (args : LogArgs) (files : List (List Str × Bytes)) : Prop :=
  files = fs.sourceFiles (args.artifacts.getD []) ∨
    files = withMarker (fs.sourceFiles (args.artifacts.getD []))

theorem Kept.names (h : Kept fs args files) : ∀ f ∈ files, f.1 ≠ [] ∧ ∀ n ∈ f.1, IsName n := by
  have hnames : ∀ f ∈ fs.sourceFiles (args.artifacts.getD []), f.1 ≠ [] ∧ ∀ m ∈ f.1, IsName m :=
    fun f hf => sourceFiles_names hf
  rcases h with rfl | rfl
  · exact hnames
  · intro f hf
    rcases List.mem_cons.1 hf with rfl | hf
    · exact ⟨by simp, by simp [isName_retentionMarker]⟩
    · exact hnames f (List.mem_of_mem_filter hf)

/-- What became of a run since it was logged: a lookup finds nothing of it, or its record and the
files that are kept. -/
theorem entry_after_history {w₁ : World} {J : List (Operator × Step Call Ans Fate World)}
    {s₂ : State Operator} (hs : Accounted (w₁, J)) (hpub : Publishes store fs.toLocalFs args id e)
    (he : w₁.registry.entries id = some e) (ha : safeIdBody args.identity.aliasName = true)
    (h₂ : Managed (w₁, J) s₂) : isRunId id = true ∧ id ∈ s₂.1.registry.used ∧
      (s₂.1.registry.entries id = none ∨ ∃ e', s₂.1.registry.entries id = some e' ∧
        e'.record = e.record ∧ ∃ files, Kept fs args files ∧ (files.map Prod.fst).Nodup ∧
          ∀ name c, s₂.1.filesOf e.record name = some c ↔
            ∃ f ∈ files, joined f.1 = name ∧ f.2 = c) := by
  obtain ⟨run, hrun, -, -⟩ := World.found_eq_some.1 he
  have hid : isRunId id = true := hs.hex hrun
  have hnames : ∀ f ∈ fs.sourceFiles (args.artifacts.getD []), f.1 ≠ [] ∧ ∀ m ∈ f.1, IsName m :=
    fun f hf => sourceFiles_names hf
  obtain ⟨hnd, hfiles⟩ := hpub.files_iff ha hid
  refine ⟨hid, (Managed.later h₂ hs).used_subset (w₁.registry.entry_used id e he), ?_⟩
  rcases (Managed.later h₂ hs).entry he with hnone | hsame | hmark
  · exact .inl hnone
  · obtain ⟨run₂, -, -, hentry⟩ := World.found_eq_some.1 hsame
    have hnow : s₂.1.filesOf e.record = e.files := by rw [hentry]
    refine .inr ⟨e, hsame, rfl, _, .inl rfl, hnd, fun name c => ?_⟩
    rw [hnow]
    exact hfiles name c
  · obtain ⟨run₂, -, -, hentry⟩ := World.found_eq_some.1 hmark
    have hrecord : e.record = toRef (id, run₂) := congrArg Entry.record hentry
    have hnow : s₂.1.filesOf e.record = Function.update e.files retentionMarker (some []) := by
      rw [hrecord]
      exact (congrArg Entry.files hentry).symm
    refine .inr ⟨_, hmark, rfl, _, .inr rfl, nodup_withMarker hnd, fun name c => ?_⟩
    rw [hnow, mem_withMarker hnames]
    by_cases hname : name = retentionMarker
    · rw [if_pos hname, hname, Function.update_self, Option.some.injEq]
      exact eq_comm
    · rw [if_neg hname, Function.update_of_ne hname]
      exact hfiles name c

/-- Whatever was done since the run was logged, a download of what the lookup returns brings the
producer's files, or these with the retention marker. -/
theorem download_after_history {n : ℕ} {w₀ w₁ w₂ : World} {s₁ s₂ : State Operator}
    {refs : List RunRef} {tr₁ tr₂ : List (Step Call Ans Fate World)}
    (hblank : Blank w₀) (h₁ : Managed (w₀, []) s₁) (hnew : ∀ st, (.worker n, st) ∉ s₁.2)
    (ha : safeIdBody args.identity.aliasName = true)
    (hlog : Exec (Serves Lossless) (log store fs.toLocalFs args) s₁.1 tr₁ (.ok id) w₁)
    (h₂ : Managed (w₁, s₁.2 ++ tr₁.map (.worker n, ·)) s₂)
    (hlook : Exec (Serves Reliable) (resolve id .id false) s₂.1 tr₂ (.ok refs) w₂)
    (href : ref ∈ refs) (hD : D ≠ []) (hDn : ∀ m ∈ D, IsName m) (hdisk : disk.Valid IsName)
    (hdest : disk.node D = some (.dir .empty))
    (hnest : ¬ Nested (withMarker (fs.sourceFiles (args.artifacts.getD []))))
    (hdown : Exec (Serving cwd Faultless) (download cwd ref (slashed D)) (s₂.1, disk) tr r s') :
    Reproduces D (fs.sourceFiles (args.artifacts.getD [])) disk r s'.2 ∨
      Reproduces D (withMarker (fs.sourceFiles (args.artifacts.getD []))) disk r s'.2 := by
  obtain ⟨hs, e, hpub, he⟩ := publish_of_log (Managed.accounted h₁ hblank.accounted) hnew hlog
  obtain ⟨hid, hused, hentry⟩ := entry_after_history hs hpub he ha h₂
  have hrefs := Except.ok.inj ((exec_resolve_registry hlook).2 hused)
  have huri : e.record.artifactsUri = some (args.uri store id) := hpub.record.artifactsUri
  have hne : args.uri store id ≠ [] := by
    unfold LogArgs.uri artifactsUri s3Uri
    simp
  rcases hentry with hnone | ⟨e', he', hrecord, files, hkept, hnd, hfiles⟩
  · rw [hnone] at hrefs
    rw [hrefs] at href
    cases href
  · rw [he'] at hrefs
    obtain rfl : ref = e.record := by
      rw [hrefs] at href
      exact (List.mem_singleton.1 href).trans hrecord
    -- with the marker as one more file there is no nesting, so there is none without it
    have hfree : ¬ Nested files := by
      rcases hkept with rfl | rfl
      · exact fun hn => hnest (nested_of_paths paths_withMarker hn)
      · exact hnest
    have hrep := exec_download_files huri hne (Model.parse_uri ha hid) hD hDn hdisk hdest
      hkept.names hnd hfree hfiles hdown
    rcases hkept with rfl | rfl
    · exact .inl hrep
    · exact .inr hrep

/-- Where nothing fails, a download into a directory that is there comes to an end. -/
theorem exec_download_exists (huri : ref.artifactsUri = some uri) (hne : uri ≠ [])
    (hDn : ∀ n ∈ D, IsName n) (hdir : disk.isDir D = true) : ∃ tr r s',
    Exec (Serving cwd Faultless) (download cwd ref (slashed D)) (w, disk) tr r s' := by
  have hfree : ∀ q, q <+: D → disk.fileAt q = none := fun q hq =>
    FileTree.fileAt_of_isDir (FileTree.isDir_of_prefix hdir hq)
  obtain ⟨d', hd', -⟩ := makedirs_slashed cwd hDn hfree
  have hgetD : ref.artifactsUri.getD [] = uri := by rw [huri, Option.getD_some]
  obtain ⟨tr, r, s', h⟩ := exec_downloadPrefix_exists cwd uri (slashed D) (w, d')
  have hmake : Exec (Serving cwd Faultless) (transfer (.makedirs (slashed D))) (w, disk)
      [⟨.makedirs (slashed D), .ok, .ok (), (w, d')⟩] (.ok ()) (w, d') := by
    refine exec_transfer.2 ⟨.ok, ⟨rfl, rfl, ?_⟩, rfl⟩
    show MakesDirs cwd (slashed D) disk (.ok ()) d'
    rw [MakesDirs, hd']
    exact ⟨rfl, rfl⟩
  unfold download
  simp only [hgetD, if_neg hne]
  exact ⟨_, r, s', exec_bind.2 (.inr ⟨(), _, tr, (w, d'), hmake, h, rfl⟩)⟩

def machineArgs : LogArgs := { sampleArgs with artifacts := some ["/a".toList] }

abbrev machineLog : Action Str := log sampleStore sampleMachine.toLocalFs machineArgs

def loggedWorld : World := (simulate (fun _ => .ok) machineLog noRuns).2.2

theorem exec_machineLog : ∃ tr, Exec (Serves Lossless) machineLog noRuns tr
    (.ok (sampleRunId '0')) loggedWorld := by
  have hout : (simulate (fun _ => .ok) machineLog noRuns).2.1.toOption =
      some (sampleRunId '0') := by
    decide +kernel
  have hexec := exec_simulate machineLog noRuns (lossless_serve (fun _ => .ok) fun _ _ => by simp)
  cases hr : (simulate (fun _ => .ok) machineLog noRuns).2.1 with
  | error e =>
    rw [hr] at hout
    cases hout
  | ok id =>
    rw [hr] at hout hexec
    obtain rfl := Option.some.inj hout
    exact ⟨_, hexec⟩

/-- A run with one file, downloaded to `/d` right after it was logged. -/
theorem download_after_history_sample :
    ∃ (w : World) (ref : RunRef) (r : _) (s' : World × Dir) (tr : _),
    Exec (Serving ['/'] Faultless) (download ['/'] ref (slashed [['d']])) (w, sampleDisk) tr r s' ∧
    (Reproduces [['d']] (sampleMachine.sourceFiles ["/a".toList]) sampleDisk r s'.2 ∨
      Reproduces [['d']] (withMarker (sampleMachine.sourceFiles ["/a".toList])) sampleDisk r
        s'.2) := by
  obtain ⟨tr₁, hlog⟩ := exec_machineLog
  have hstart : Managed (noRuns, []) (noRuns, []) := .refl
  have hs : Accounted (noRuns, []) := blank_noRuns.accounted
  obtain ⟨-, e, hpub, he⟩ := publish_of_log (n := 0) hs (fun _ => List.not_mem_nil) hlog
  obtain ⟨tr₂, out, w₂, hlook⟩ :=
    exec_exists (uses_resolve (sampleRunId '0') .id false) reliable_lookupCall loggedWorld
  have hrefs := (exec_resolve_registry hlook).2 (loggedWorld.registry.entry_used _ e he)
  rw [he] at hrefs
  subst hrefs
  have hname : ∀ m ∈ [['d']], IsName m := by
    intro m hm
    rw [List.mem_singleton.1 hm]
    exact ⟨by decide, by decide, by decide, by decide⟩
  obtain ⟨tr, r, s', hdown⟩ : ∃ tr r s', Exec (Serving ['/'] Faultless)
      (download ['/'] e.record (slashed [['d']])) (loggedWorld, sampleDisk) tr r s' :=
    exec_download_exists hpub.record.artifactsUri (by decide) hname rfl
  refine ⟨loggedWorld, e.record, r, s', tr, hdown, ?_⟩
  exact download_after_history (n := 0) blank_noRuns hstart (fun _ => List.not_mem_nil)
    (by decide) hlog .refl hlook (List.mem_singleton_self _) (by simp) hname (by decide) rfl
    (by decide) hdown

end Delivery

end Accel.Model
