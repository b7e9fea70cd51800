import AccelProf.Layout.Copy

/-! An upload decides all its destination keys before it sends anything: a missing path or two files
with one key end it without a call, and otherwise the files go out one after the other. -/

namespace Accel.Model
open Data Program Prog

variable {fs : FileSystem} {p : Str} {pre : Key} {artifacts : List Str} {planned : List (Str × Key)}

/-- Each source file's destination key and content. -/
def FileSystem.destinations (fs : FileSystem) (pre : Key) (artifacts : List Str) :
    List (Key × Bytes) :=
  (fs.sourceFiles artifacts).map fun f => (pre ++ joined f.1, f.2)

/-- A regular file with content `body` that `path` leads to: `path` itself, under its own name, or a
file at `ns` below the directory `path`. -/
def FileSystem.Reaches (fs : FileSystem) (path : Str) (ns : List Str) (body : Bytes) : Prop :=
  ∃ q, fs.resolve path = some q ∧ ((fs.root.fileAt q = some body ∧ ns = [basename path]) ∨
    (fs.root.isDir q = true ∧ fs.root.fileAt (q ++ ns) = some body))

section Reach

theorem fileAt_eq_some {d : Dir} {q : List Str} {c : Bytes} :
    d.fileAt q = some c ↔ d.node q = some (.file c) := by
  unfold FileTree.fileAt
  cases d.node q with
  | none => simp
  | some x => cases x <;> simp

theorem mem_artifactFiles {f : List Str × Bytes} : f ∈ fs.artifactFiles p ↔
    fs.Reaches p f.1 f.2 := by
  unfold FileSystem.artifactFiles FileSystem.Reaches FileSystem.lookup
  cases hq : fs.resolve p with
  | none => simp
  | some q =>
    simp only [Option.bind_some, Option.some.injEq, exists_eq_left']
    cases hx : fs.root.node q with
    | none =>
      have hd : fs.root.isDir q ≠ true := fun h => by simp [FileTree.isDir, hx] at h
      simp [fileAt_eq_some, hx, hd]
    | some x =>
      cases x with
      | file c =>
        have hd : fs.root.isDir q ≠ true := fun h => by simp [FileTree.isDir, hx] at h
        simp only [List.mem_singleton, fileAt_eq_some, hx, hd, Option.some.injEq, Node.file.injEq]
        rw [Prod.ext_iff]
        tauto
      | dir d =>
        have hd : fs.root.isDir q = true := FileTree.isDir_iff.2 ⟨d, hx⟩
        have hfile : fs.root.fileAt q = none := FileTree.fileAt_of_isDir hd
        simp only [hd, hfile, reduceCtorEq, false_and, true_and, false_or]
        rw [FileTree.fileAt_append hx, ← FileTree.mem_files_iff (fs.valid.of_node hx)]

theorem mem_destinations {d : Key × Bytes} : d ∈ fs.destinations pre artifacts ↔
    ∃ p ∈ artifacts, ∃ ns, fs.Reaches p ns d.2 ∧ d.1 = pre ++ joined ns := by
  unfold FileSystem.destinations FileSystem.sourceFiles
  rw [List.mem_map]
  constructor
  · rintro ⟨f, hf, rfl⟩
    obtain ⟨p, hp, hf⟩ := List.mem_flatMap.1 hf
    exact ⟨p, hp, f.1, mem_artifactFiles.1 hf, rfl⟩
  · rintro ⟨p, hp, ns, hr, hk⟩
    exact ⟨(ns, d.2), List.mem_flatMap.2 ⟨p, hp, mem_artifactFiles.2 hr⟩, Prod.ext hk.symm rfl⟩

end Reach

section Plan
variable {files : List (Str × Str)}

theorem iterFiles_exists (h : fs.lookup p ≠ none) : ∃ files, fs.toLocalFs.iterFiles p = .ok files ∧
    ∀ f ∈ files, fs.toLocalFs.pathExists f.1 = true := by
  obtain ⟨x, hl⟩ := Option.ne_none_iff_exists'.1 h
  cases x with
  | file c =>
    have hd : fs.toLocalFs.isdir p = false := by simp only [FileSystem.toLocalFs, hl]
    have he : fs.toLocalFs.pathExists p = true := congrArg Option.isSome hl
    refine ⟨[(p, basename p)], ?_, by simpa using he⟩
    unfold LocalFs.iterFiles
    rw [hd, he]
    rfl
  | dir d =>
    obtain ⟨base, q, hne, hbase, hd, hfiles⟩ := iterFiles_dir hl
    refine ⟨_, hfiles, fun f hf => ?_⟩
    obtain ⟨g, hg, rfl⟩ := List.mem_map.1 hf
    have hnode := (FileTree.mem_files (fs.valid.of_node hd)).1 hg
    have hres := resolve_foldl hne hbase hd hnode
    have hroot : fs.root.node (q ++ g.1) = some (.file g.2) :=
      (FileTree.node_append q g.1 _ hd).trans hnode
    show (fs.lookup (g.1.foldl pathJoin base)).isSome = true
    unfold FileSystem.lookup
    rw [hres, Option.bind_some, hroot]
    rfl

theorem iterFiles_missing (h : fs.lookup p = none) :
    fs.toLocalFs.iterFiles p = .error (.fileNotFound p) := by
  have hd : fs.toLocalFs.isdir p = false := by simp only [FileSystem.toLocalFs, h]
  have he : fs.toLocalFs.pathExists p = false := congrArg Option.isSome h
  unfold LocalFs.iterFiles
  rw [hd, he]
  rfl

/-- Files whose keys are new are all planned. -/
theorem planFiles_exists (hnd : (planned.map Prod.snd ++ files.map (pre ++ ·.2)).Nodup) :
    files.foldlM (planFile pre)
    planned = .ok (planned ++ files.map fun f => (f.1, pre ++ f.2)) := by
  induction files generalizing planned with
  | nil => exact congrArg Except.ok (List.append_nil planned).symm
  | cons f files ih =>
    have hnew : planned.find? (·.2 == pre ++ f.2) = none := by
      rw [List.find?_eq_none]
      intro g hg he
      have hsame : g.2 = pre ++ f.2 := by simpa using he
      refine List.disjoint_of_nodup_append hnd (List.mem_map_of_mem hg) ?_
      rw [hsame, List.map_cons]
      exact List.mem_cons_self
    have hstep : planFile pre planned f = .ok (planned ++ [(f.1, pre ++ f.2)]) := by
      unfold planFile
      simp only [hnew]
    refine foldlM_cons_ok.2 ⟨_, hstep, ?_⟩
    rw [ih (by simpa using hnd)]
    simp

theorem destinations_cons (p : Str) (artifacts : List Str) : fs.destinations pre (p :: artifacts) =
    fs.destinations pre [p] ++ fs.destinations pre artifacts := by
  simp [FileSystem.destinations, FileSystem.sourceFiles]

theorem iterFiles_destinations (h : fs.toLocalFs.iterFiles p = .ok files) :
    files.map (fun f => (pre ++ f.2, fs.toLocalFs.read f.1)) = fs.destinations pre [p] := by
  have hkeys := congrArg (List.map fun g : Str × Bytes => (pre ++ g.1, g.2)) (iterFiles_ok h)
  simp only [List.map_map, Function.comp_def] at hkeys
  rw [hkeys]
  simp [FileSystem.destinations, FileSystem.sourceFiles]

/-- The planning loop from the plan `planned` on. -/
def planFrom (lfs : LocalFs) (pre : Key) (planned : List (Str × Key)) (artifacts : List Str) :
    Except PyExc (List (Str × Key)) :=
  artifacts.foldlM (fun planned path => do
    let files ← lfs.iterFiles path
    files.foldlM (planFile pre) planned) planned

theorem planFrom_cons {lfs : LocalFs} {planned' : List (Str × Key)} :
    planFrom lfs pre planned (p :: artifacts) = .ok planned' ↔
    ∃ files planned₁, lfs.iterFiles p = .ok files ∧
      files.foldlM (planFile pre) planned = .ok planned₁ ∧
        planFrom lfs pre planned₁ artifacts = .ok planned' := by
  unfold planFrom
  rw [foldlM_cons_ok]
  constructor
  · rintro ⟨planned₁, hp, hrest⟩
    obtain ⟨files, hfiles, hplan⟩ := except_bind_ok.1 hp
    exact ⟨files, planned₁, hfiles, hplan, hrest⟩
  · rintro ⟨files, planned₁, hfiles, hplan, hrest⟩
    exact ⟨planned₁, except_bind_ok.2 ⟨files, hfiles, hplan⟩, hrest⟩

/-- The plan of an upload, when there is one: every destination in order, each from an existing
file. -/
def Plans (fs : FileSystem) (pre : Key) (artifacts : List Str) (planned : List (Str × Key)) :
    Prop :=
  planned.map (fun f => (f.2, fs.toLocalFs.read f.1)) = fs.destinations pre artifacts ∧
    ∀ f ∈ planned, fs.toLocalFs.pathExists f.1 = true

theorem planArtifacts_exists (hex : ∀ p ∈ artifacts, fs.lookup p ≠ none)
    (hnd : ((fs.destinations pre artifacts).map Prod.fst).Nodup) :
    ∃ planned, planArtifacts fs.toLocalFs pre artifacts = .ok planned ∧
    Plans fs pre artifacts planned := by
  -- the loop from any plan whose keys the remaining files do not meet
  have key : ∀ (planned₀ : List (Str × Key)),
      (planned₀.map Prod.snd ++ (fs.destinations pre artifacts).map Prod.fst).Nodup →
      ∃ more, planFrom fs.toLocalFs pre planned₀ artifacts = .ok (planned₀ ++ more) ∧
        Plans fs pre artifacts more := by
    clear hnd
    induction artifacts with
    | nil =>
      intro planned₀ _
      refine ⟨[], congrArg Except.ok (List.append_nil planned₀).symm, ?_⟩
      simp [Plans, FileSystem.destinations, FileSystem.sourceFiles]
    | cons p artifacts ih =>
      intro planned₀ hnd
      obtain ⟨hp, hrest⟩ := List.forall_mem_cons.1 hex
      obtain ⟨files, hfiles, hpaths⟩ := iterFiles_exists hp
      have hdest : files.map (fun f => (pre ++ f.2, fs.toLocalFs.read f.1)) =
          fs.destinations pre [p] :=
        iterFiles_destinations hfiles
      have hkeys := congrArg (List.map Prod.fst) hdest
      simp only [List.map_map, Function.comp_def] at hkeys
      rw [destinations_cons, List.map_append, ← List.append_assoc, ← hkeys] at hnd
      have hplan : files.foldlM (planFile pre) planned₀ =
          .ok (planned₀ ++ files.map fun f => (f.1, pre ++ f.2)) :=
        planFiles_exists hnd.of_append_left
      obtain ⟨more, hmore, hdests, hexist⟩ :=
        ih hrest (planned₀ ++ files.map fun f => (f.1, pre ++ f.2))
        (by simpa [Function.comp_def] using hnd)
      refine ⟨files.map (fun f => (f.1, pre ++ f.2)) ++ more, ?_, ?_, ?_⟩
      · refine planFrom_cons.2 ⟨files, _, hfiles, hplan, ?_⟩
        rw [hmore, List.append_assoc]
      · rw [destinations_cons, List.map_append, hdests, ← hdest, List.map_map]
        rfl
      · intro f hf
        rcases List.mem_append.1 hf with hf | hf
        · obtain ⟨g, hg, rfl⟩ := List.mem_map.1 hf
          exact hpaths g hg
        · exact hexist f hf
  exact key [] hnd

theorem planFrom_not_mem {planned₀ : List (Str × Key)} (hl : fs.lookup p = none)
    (h : planFrom fs.toLocalFs pre planned₀ artifacts = .ok planned) : p ∉ artifacts := by
  induction artifacts generalizing planned₀ with
  | nil => exact List.not_mem_nil
  | cons p' artifacts ih =>
    intro hm
    obtain ⟨files, planned₁, hfiles, -, hrest⟩ := planFrom_cons.1 h
    rcases List.mem_cons.1 hm with rfl | hm
    · rw [iterFiles_missing hl] at hfiles
      cases hfiles
    · exact ih hrest hm

theorem planArtifacts_refused (h : (∃ p ∈ artifacts, fs.lookup p = none) ∨
    ¬ ((fs.destinations pre artifacts).map Prod.fst).Nodup) :
    ∃ e, planArtifacts fs.toLocalFs pre artifacts = .error e := by
  cases hplan : planArtifacts fs.toLocalFs pre artifacts with
  | error e => exact ⟨e, rfl⟩
  | ok planned =>
    exfalso
    rcases h with ⟨p, hp, hl⟩ | hnd
    · exact planFrom_not_mem hl hplan hp
    · have hkeys := congrArg (List.map Prod.fst) (planArtifacts_map hplan)
      simp only [List.map_map, Function.comp_def] at hkeys
      have hdest : (fs.destinations pre artifacts).map Prod.fst = planned.map Prod.snd := by
        rw [hkeys, FileSystem.destinations, List.map_map]
        rfl
      rw [hdest] at hnd
      exact hnd (planArtifacts_ok hplan).1

end Plan

section Send
variable {F : Call → Fate → Prop} {w w' : World} {tr : List (Step Call Ans Fate World)} {b : Str}
  {lfs : LocalFs} {r : Except PyExc (List Key)} {objs : List Key}

/-- A call of the verified upload of `d.2` to the key `d.1`. -/
def UploadsTo (b : Str) (d : Key × Bytes) : Call → Prop
  | .uploadFile _ b' key body _ => b' = b ∧ key = d.1 ∧ body = d.2
  | .headObject b' key => b' = b ∧ key = d.1
  | .sleep _ => True
  | _ => False

instance (b : Str) (d : Key × Bytes) : DecidablePred (UploadsTo b d)
  | .uploadFile .. => inferInstanceAs (Decidable (_ ∧ _ ∧ _))
  | .headObject .. => inferInstanceAs (Decidable (_ ∧ _))
  | .sleep _ => .isTrue trivial
  | .listCommonPrefixes .. | .listObjects .. | .deleteObjects .. | .putObject ..
  | .getExperimentByName _ | .createExperiment _ | .createRun .. | .setTag .. | .logParam ..
  | .logMetric .. | .setTerminated .. | .getRun _ | .searchRuns _ | .deleteRun _ =>
    .isFalse not_false

/-- A verified upload of the file `d.2` to the key `d.1` that ends with `out`: a transfer first, and
no call that is not for this file. -/
structure SentTo (F : Call → Fate → Prop) (lfs : LocalFs) (b : Str) (d : Key × Bytes)
    (seg : List (Step Call Ans Fate World)) (out : Except PyExc Str) : Prop where
  upload : ∃ path u u', lfs.read path = d.2 ∧
    Exec (Serves F) (uploadVerified lfs path b d.1) u seg out u'
  first : ∃ path hex, seg.head?.map Step.call = some (.uploadFile path b d.1 d.2 hex)
  calls : ∀ st ∈ seg, UploadsTo b d st.call

theorem exec_uploadVerified_sent {path : Str} {key : Key} {out : Except PyExc Str}
    (hpath : lfs.pathExists path = true)
    (h : Exec (Serves F) (uploadVerified lfs path b key) w tr out w') :
    SentTo F lfs b (key, lfs.read path) tr out := by
  have huses : (uploadVerified lfs path b key).Uses (UploadsTo b (key, lfs.read path)) :=
    uses_uploadVerified_of (fun _ => ⟨rfl, rfl, rfl⟩) ⟨rfl, rfl⟩ fun _ => trivial
  refine ⟨⟨path, w, w', rfl, h⟩, ⟨path, (lfs.sha256 (lfs.read path)).1, ?_⟩, huses.calls h⟩
  unfold uploadVerified at h
  rw [hpath] at h
  obtain ⟨l, a, w₁, tr', -, rfl, -⟩ := h
  rfl

/-- The upload of this file returned. -/
def Delivers (F : Call → Fate → Prop) (lfs : LocalFs) (b : Str) (d : Key × Bytes)
    (seg : List (Step Call Ans Fate World)) : Prop := ∃ hex, SentTo F lfs b d seg (.ok hex)

/-- What a run over a plan does: all files are sent, or all before the one whose upload raises and
that one. -/
inductive SendsPlan (F : Call → Fate → Prop) (lfs : LocalFs) (b : Str) (w w' : World) :
    List (Str × Key) → List (Step Call Ans Fate World) → Except PyExc Unit → Prop where
  | finished {planned : List (Str × Key)} {segs : List (List (Step Call Ans Fate World))}
      (hsent : List.Forall₂ (fun f => Delivers F lfs b (f.2, lfs.read f.1)) planned segs) :
      SendsPlan F lfs b w w' planned segs.flatten (.ok ())
  | stopped {before after : List (Str × Key)} {f : Str × Key}
      {segs : List (List (Step Call Ans Fate World))} {seg : List (Step Call Ans Fate World)}
      {e : PyExc}
      (hsent : List.Forall₂ (fun f => Delivers F lfs b (f.2, lfs.read f.1)) before segs)
      (hlast : SentTo F lfs b (f.2, lfs.read f.1) seg (.error e))
      (htouch : Touches b (· ∈ (before ++ [f]).map Prod.snd) w w')
      (hheld : ∀ g ∈ before, Holds lfs b g.1 g.2 w') :
      SendsPlan F lfs b w w' (before ++ f :: after) (segs.flatten ++ seg) (.error e)

theorem UploadRun.sendsPlan {out : Except PyExc Unit}
    (h : UploadRun F lfs b planned w tr out w') (hpaths : ∀ f ∈ planned, lfs.pathExists f.1 = true)
    (hnd : (planned.map Prod.snd).Nodup) : SendsPlan F lfs b w w' planned tr out := by
  have htouches : ∀ {f : Str × Key} {w w' : World} {seg : List (Step Call Ans Fate World)} {out},
      Exec (Serves F) (uploadVerified lfs f.1 b f.2) w seg out w' → Touches b (· = f.2) w w' :=
    fun hfile => (exec_uploadCalls (uses_uploadVerified (S := (· = _)) lfs _ rfl) hfile).1
  induction h with
  | done w => exact @SendsPlan.finished F lfs b w w [] [] .nil
  | @failed f planned w w' seg e hfile =>
    have hsent := exec_uploadVerified_sent (hpaths f List.mem_cons_self) hfile
    have htouch : Touches b (· ∈ [f].map Prod.snd) w w' :=
      (htouches hfile).mono fun k hk => by simp [hk]
    exact @SendsPlan.stopped F lfs b w w' [] planned f [] seg e .nil hsent htouch (by simp)
  | @sent f planned w w₁ w' seg tr hex r hfile hrest ih =>
    obtain ⟨hpath, hpaths⟩ := List.forall_mem_cons.1 hpaths
    obtain ⟨hnew, hnd⟩ := List.nodup_cons.1 hnd
    have hsent := exec_uploadVerified_sent hpath hfile
    have hheld := exec_uploadVerified_ok hfile
    cases ih hpaths hnd with
    | @finished _ segs hsents =>
      have hall : List.Forall₂ (fun g => Delivers F lfs b (g.2, lfs.read g.1)) (f :: planned)
          (seg :: segs) := .cons ⟨hex, hsent⟩ hsents
      exact .finished hall
    | @stopped before after g segs last e hsents hlast htouch hheld' =>
      have hnew' : f.2 ∉ (before ++ [g]).map Prod.snd := fun hm => by
        refine hnew (List.map_subset _ (fun x hx => ?_) hm)
        simp only [List.mem_append, List.mem_cons] at hx ⊢
        tauto
      have hall : List.Forall₂ (fun g => Delivers F lfs b (g.2, lfs.read g.1)) (f :: before)
          (seg :: segs) := .cons ⟨hex, hsent⟩ hsents
      have hboth : Touches b (· ∈ ((f :: before) ++ [g]).map Prod.snd) w w' :=
        ((htouches hfile).mono fun k hk => by simp [hk]).trans
          (htouch.mono fun k hk => List.mem_cons_of_mem _ hk)
      rw [← List.append_assoc, ← List.flatten_cons]
      exact @SendsPlan.stopped F lfs b w w' (f :: before) after g (seg :: segs) last e hall hlast
        hboth (List.forall_mem_cons.2 ⟨hheld.touches htouch hnew', hheld'⟩)

end Send

section Outcome
variable {F : Call → Fate → Prop} {w w' : World} {tr : List (Step Call Ans Fate World)}
  {lfs : LocalFs} {b uri : Str} {dests : List (Key × Bytes)} {r : Except PyExc Uploaded}

/-- The bucket has the content `d.2` at the key `d.1`. -/
def Arrived (b : Str) (w : World) (d : Key × Bytes) : Prop :=
  ∃ obj, (w.s3 b).get d.1 = some obj ∧ obj.body = d.2

/-- Every destination is sent to once, in order, each upload returns, and the bucket is the old one
updated at these keys. -/
structure Finishes (F : Call → Fate → Prop) (lfs : LocalFs) (b uri : Str)
    (dests : List (Key × Bytes)) (w w' : World) (tr : List (Step Call Ans Fate World))
    (r : Except PyExc Uploaded) : Prop where
  sent : ∃ segs : List (List _), tr = segs.flatten ∧ List.Forall₂ (Delivers F lfs b) dests segs
  returns : r = .ok ⟨uri, dests.map Prod.fst, dests.length⟩
  touches : Touches b (· ∈ dests.map Prod.fst) w w'
  arrived : ∀ d ∈ dests, Arrived b w' d

/-- The upload of `d` raises, and that ends the whole: the files before it arrived, and those after
it were not tried. -/
structure StopsAt (F : Call → Fate → Prop) (lfs : LocalFs) (b : Str) (before : List (Key × Bytes))
    (d : Key × Bytes) (w w' : World) (tr : List (Step Call Ans Fate World))
    (r : Except PyExc Uploaded) : Prop where
  sent : ∃ (segs : List (List _)) (seg : List _) (e : PyExc), tr = segs.flatten ++ seg ∧
    List.Forall₂ (Delivers F lfs b) before segs ∧ SentTo F lfs b d seg (.error e) ∧ r = .error e
  touches : Touches b (· ∈ (before ++ [d]).map Prod.fst) w w'
  arrived : ∀ d ∈ before, Arrived b w' d

theorem Holds.arrived {f : Str × Key} (h : Holds lfs b f.1 f.2 w) :
    Arrived b w (f.2, lfs.read f.1) := by
  obtain ⟨t, h⟩ := h
  exact ⟨_, SortedMap.get_eq_some.2 h, rfl⟩

theorem exec_planned (hdests : planned.map (fun f => (f.2, lfs.read f.1)) = dests)
    (hpaths : ∀ f ∈ planned, lfs.pathExists f.1 = true) (hnd : (planned.map Prod.snd).Nodup)
    (h : Exec (Serves F) ((uploadPlanned lfs b planned []).bind fun objects =>
      ret (Uploaded.mk uri objects objects.length)) w tr r w') :
    Finishes F lfs b uri dests w w' tr r ∨
      ∃ before d after, dests = before ++ d :: after ∧ StopsAt F lfs b before d w w' tr r := by
  subst hdests
  have hkeys : ∀ fs : List (Str × Key),
      (fs.map fun f => (f.2, lfs.read f.1)).map Prod.fst = fs.map Prod.snd := fun fs => by
    rw [List.map_map]
    rfl
  have harrived : ∀ {fs : List (Str × Key)}, (∀ f ∈ fs, Holds lfs b f.1 f.2 w') →
      ∀ d ∈ fs.map fun f => (f.2, lfs.read f.1), Arrived b w' d := fun hheld d hd => by
    obtain ⟨f, hf, rfl⟩ := List.mem_map.1 hd
    exact (hheld f hf).arrived
  rcases exec_bind.1 h with ⟨e, he, rfl⟩ | ⟨objects, tr₁, tr₂, w₁, h₁, ⟨rfl, rfl, rfl⟩, rfl⟩
  · obtain ⟨out, hup, hout⟩ := exec_uploadPlanned he
    -- it raised, so it did not finish
    cases hup.sendsPlan hpaths hnd with
    | finished => cases hout
    | @stopped before after f segs seg e' hsent hlast htouch hheld =>
      obtain rfl := Except.error.inj hout
      refine .inr ⟨_, _, _, List.map_append, ⟨segs, seg, e, rfl,
        List.forall₂_map_left_iff.2 hsent, hlast, rfl⟩, ?_, harrived hheld⟩
      have hpoint := hkeys (before ++ [f])
      have hmap : (before ++ [f]).map (fun f => (f.2, lfs.read f.1)) =
        before.map (fun f => (f.2, lfs.read f.1)) ++ [f].map fun f => (f.2, lfs.read f.1) :=
        List.map_append
      rw [hmap] at hpoint
      show Touches b (· ∈ (before.map (fun f => (f.2, lfs.read f.1)) ++
        [f].map fun f => (f.2, lfs.read f.1)).map Prod.fst) w w'
      rw [hpoint]
      exact htouch
  · have htouch :=
      (exec_uploadCalls (uses_uploadPlanned (b := b) (S := (· ∈ planned.map Prod.snd)) lfs
      (fun f hf => List.mem_map_of_mem hf) []) h₁).1
    have hheld := exec_uploadPlanned_ok hnd h₁
    obtain ⟨out, hup, hout⟩ := exec_uploadPlanned h₁
    cases hup.sendsPlan hpaths hnd with
    | stopped => cases hout
    | @finished _ segs hsent =>
      obtain rfl := Except.ok.inj hout
      refine .inl ⟨⟨segs, List.append_nil _, List.forall₂_map_left_iff.2 hsent⟩, ?_, ?_,
        harrived hheld⟩
      · rw [hkeys, List.nil_append, List.length_map, List.length_map]
      · rw [hkeys]
        exact htouch

end Outcome

/-- A missing path or a key collision ends an upload before its first call; otherwise the keys are
distinct and below the run's prefix, they are the files the paths lead to, and the upload sends them
in order, to the end or up to the first file whose verified upload raises. -/
theorem upload_plans_first {b aliasName runId : Str} {artifacts : Option (List Str)}
    {F : Call → Fate → Prop}
    {w w' : World} {tr : List (Step Call Ans Fate World)} {r : Except PyExc Uploaded}
    (h : Exec (Serves F) (uploadArtifacts fs.toLocalFs b aliasName runId artifacts) w tr r w') :
    let paths := artifacts.getD []
    let pre := runPrefix aliasName runId
    let dests := fs.destinations pre paths
    ((∃ p ∈ paths, fs.lookup p = none) ∨ ¬ (dests.map Prod.fst).Nodup →
      tr = [] ∧ w' = w ∧ ∃ e, r = .error e) ∧
    ((∀ p ∈ paths, fs.lookup p ≠ none) → (dests.map Prod.fst).Nodup →
      (∀ d, d ∈ dests ↔ ∃ p ∈ paths, ∃ ns, fs.Reaches p ns d.2 ∧ d.1 = pre ++ joined ns) ∧
      (∀ d ∈ dests, pre <+: d.1) ∧
      (Finishes F fs.toLocalFs b (artifactsUri b aliasName runId) dests w w' tr r ∨
        ∃ before d after, dests = before ++ d :: after ∧
          StopsAt F fs.toLocalFs b before d w w' tr r)) := by
  intro paths pre dests
  unfold uploadArtifacts at h
  constructor
  · intro hbad
    obtain ⟨e, he⟩ := planArtifacts_refused hbad
    rw [he] at h
    obtain ⟨rfl, rfl, rfl⟩ := h
    exact ⟨rfl, rfl, e, rfl⟩
  · intro hex hnd
    refine ⟨fun d => mem_destinations, fun d hd => ?_, ?_⟩
    · obtain ⟨p, -, ns, -, hk⟩ := mem_destinations.1 hd
      exact hk ▸ List.prefix_append _ _
    -- the plan is exactly the destinations, in order
    · obtain ⟨planned, hplan, hdests, hpaths⟩ := planArtifacts_exists hex hnd
      have hkeys := congrArg (List.map Prod.fst) hdests
      rw [List.map_map] at hkeys
      have hplanned : (planned.map Prod.snd).Nodup := by
        show (planned.map (Prod.fst ∘ fun f => (f.2, fs.toLocalFs.read f.1))).Nodup
        rw [hkeys]
        exact hnd
      rw [hplan] at h
      exact exec_planned hdests hpaths hplanned h

/-- The transfers to this key are refused. -/
def refuseKey (key : Key) : Call → Fate
  | .uploadFile _ _ key' _ _ => if key' = key then .fail unavailable else .ok
  | _ => .ok

abbrev refusedUpload (pre : Key) :
    List (Step Call Ans Fate World) × Except PyExc Uploaded × World :=
  simulate (refuseKey (pre ++ ['p'])) (sampleUpload ["/a".toList, "/t".toList]) emptyWorld

/-- Four files: all of them arrive, and the second is the last one tried when its transfers are
refused. -/
theorem upload_plans_first_sample :
    let pre := runPrefix ['a'] (sampleRunId '0')
    let dests : List (Key × Bytes) := [(pre ++ ['x'], [1]), (pre ++ ['p'], [3]),
      (pre ++ "q/r".toList, [4]), (pre ++ "q/s".toList, [5])]
    (∃ (tr : _) (up : Uploaded) (w₁ : World),
      Exec (Serves fun _ _ => True) (sampleUpload ["/a".toList, "/t".toList]) emptyWorld tr
        (.ok up) w₁ ∧
      Finishes (fun _ _ => True) sampleMachine.toLocalFs ['b']
        (artifactsUri ['b'] ['a'] (sampleRunId '0')) dests emptyWorld w₁ tr (.ok up)) ∧
    ∃ (tr : _) (e : PyExc) (w₁ : World),
      Exec (Serves fun _ _ => True) (sampleUpload ["/a".toList, "/t".toList]) emptyWorld tr
        (.error e) w₁ ∧
      StopsAt (fun _ _ => True) sampleMachine.toLocalFs ['b'] [(pre ++ ['x'], [1])]
        (pre ++ ['p'], [3]) emptyWorld w₁ tr (.error e) := by
  intro pre dests
  have hdests : sampleMachine.destinations pre ["/a".toList, "/t".toList] = dests := by
    decide +kernel
  have hnd : (dests.map Prod.fst).Nodup := by decide +kernel
  have hex : ∀ p ∈ ["/a".toList, "/t".toList], sampleMachine.lookup p ≠ none := by
    have : ∀ p ∈ ["/a".toList, "/t".toList], (sampleMachine.lookup p).isSome := by decide +kernel
    exact fun p hp => Option.ne_none_iff_isSome.2 (this p hp)
  constructor
  · obtain ⟨tr, up, w₁, hup⟩ := exec_sampleUpload ["/a".toList, "/t".toList] (by decide +kernel)
    obtain ⟨-, hplanned⟩ := upload_plans_first hup
    rw [Option.getD_some, hdests] at hplanned
    obtain ⟨-, -, hfin | ⟨before, d, after, -, hstop⟩⟩ := hplanned hex hnd
    · exact ⟨tr, up, w₁, hup, hfin⟩
    · obtain ⟨segs, seg, e, -, -, -, he⟩ := hstop.sent
      cases he
  · have hexec : Exec (Serves fun _ _ => True) (sampleUpload ["/a".toList, "/t".toList]) emptyWorld
        (refusedUpload pre).1 (refusedUpload pre).2.1 (refusedUpload pre).2.2 :=
      exec_simulate _ _ fun _ _ => trivial
    have hraises : (refusedUpload pre).2.1.isOk = false := by decide +kernel
    have hmissing : ((refusedUpload pre).2.2.s3 ['b']).get (pre ++ ['p']) = none :=
      Option.isNone_iff_eq_none.1 (by decide +kernel)
    have htried : ∃ st ∈ (refusedUpload pre).1, ¬ UploadsTo ['b'] (pre ++ ['x'], [1]) st.call := by
      decide +kernel
    obtain ⟨-, hplanned⟩ := upload_plans_first hexec
    rw [Option.getD_some, hdests] at hplanned
    obtain ⟨-, -, hfin | ⟨before, d, after, hsplit, hstop⟩⟩ := hplanned hex hnd
    · rw [hfin.returns] at hraises
      cases hraises
    obtain ⟨segs, seg, e, hsegs, hbefore, hlast, he⟩ := hstop.sent
    refine ⟨_, e, _, he ▸ hexec, he ▸ ?_⟩
    rcases before with _ | ⟨f, _ | ⟨g, before⟩⟩
    · obtain ⟨hd, -⟩ := List.cons.inj hsplit
      obtain ⟨st, hst, hno⟩ := htried
      cases hbefore
      rw [hsegs] at hst
      exact absurd (hd ▸ hlast.calls st hst) hno
    · obtain ⟨hf, hsplit⟩ := List.cons.inj hsplit
      obtain ⟨hd, -⟩ := List.cons.inj hsplit
      rw [hf, hd]
      exact hstop
    · obtain ⟨-, hsplit⟩ := List.cons.inj hsplit
      obtain ⟨hg, -⟩ := List.cons.inj hsplit
      obtain ⟨obj, hobj, -⟩ := hstop.arrived g (by simp)
      rw [← hg, hmissing] at hobj
      cases hobj

end Accel.Model
