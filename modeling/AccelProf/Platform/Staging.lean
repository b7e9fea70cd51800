import AccelProf.Model.AnalysisService
import AccelProf.Platform.Delivery
import AccelProf.Platform.Isolation

/-! What the analysis service stages: on a machine whose mount shows the bucket, the files that the
producer logged, whatever happened to the run since. -/

namespace Accel.Model
open Data Program Prog

variable {fs : FileSystem} {M : List Str} {mount aliasName id : Str} {b : Str}
  {bucket : Bucket} {expected : List (List Str × Bytes)}

/-- What a mount of a bucket shows at the directory `M`: the objects, and no directory without a
file below it. -/
structure Mirrors (root : Dir) (M : List Str) (bucket : Bucket) : Prop where
  isDir : root.isDir M = true
  files : ∀ q, q ≠ [] → (∀ n ∈ q, IsName n) →
    root.fileAt (M ++ q) = (bucket.get (joined q)).map Obj.body
  dirs : ∀ q, q ≠ [] → root.isDir (M ++ q) = true →
    ∃ q', q' ≠ [] ∧ (root.fileAt (M ++ q ++ q')).isSome

section Place

theorem runPrefix_eq (aliasName id : Str) :
    runPrefix aliasName id = joined [aliasName, id] ++ ['/'] := by
  simp [runPrefix, joined]

theorem joined_below {q : List Str} (hq : q ≠ []) :
    joined ([aliasName, id] ++ q) = runPrefix aliasName id ++ joined q := by
  rw [joined_append (by simp) hq, runPrefix_eq]
  simp

/-- The path that `locate` computes, component by component. -/
theorem pathJoin_runPrefix (mount : Str) (ha : IsName aliasName) (hid : IsName id) :
    pathJoin mount (runPrefix aliasName id) = pathJoin (pathJoin mount aliasName) id ++ ['/'] := by
  have hslash : (id ++ ['/']).head? ≠ some '/' := by
    rw [head?_append hid.ne_nil]
    exact hid.head_ne
  have hpre : runPrefix aliasName id = pathJoin aliasName (id ++ ['/']) := by
    rw [pathJoin_of_relative _ hslash, if_neg (not_or.2 ⟨ha.ne_nil, ha.getLast_ne⟩)]
    rfl
  rw [hpre, pathJoin_assoc ha.ne_nil hslash, pathJoin_of_relative _ hslash,
    pathJoin_of_relative _ hid.head_ne]
  split_ifs
  · rw [List.append_assoc]
  · simp

theorem resolve_runDir (hmount : fs.resolve mount = some M) (ha : IsName aliasName)
    (hid : IsName id) : fs.resolve (pathJoin mount (runPrefix aliasName id)) =
      if fs.root.isDir (M ++ [aliasName, id]) then some (M ++ [aliasName, id]) else none := by
  have hne := (fs.resolve_eq_some hmount).1
  have hpath : M ++ [aliasName, id] = M ++ [aliasName] ++ [id] := by simp
  rw [pathJoin_runPrefix mount ha hid, resolve_concat (pathJoin_ne_nil (pathJoin_ne_nil hne _) _),
    resolve_pathJoin (pathJoin_ne_nil hne _) hid, resolve_pathJoin hne ha, hmount, hpath,
    Option.bind_some, resolveStep_name ha]
  by_cases hdir : fs.root.isDir (M ++ [aliasName] ++ [id]) = true
  · have hsome : ∀ {q}, fs.root.isDir q = true → (fs.root.node q).isSome := by
      intro q hq
      obtain ⟨sub, hsub⟩ := FileTree.isDir_iff.1 hq
      rw [hsub]
      rfl
    have hdir₁ := FileTree.isDir_of_prefix hdir (List.prefix_append _ _)
    have hdir₀ := FileTree.isDir_of_prefix hdir₁ (List.prefix_append _ _)
    rw [if_pos ⟨hdir₀, hsome hdir₁⟩, Option.bind_some, resolveStep_name hid,
      if_pos ⟨hdir₁, hsome hdir⟩, Option.bind_some, if_pos hdir]
    simpa [FileSystem.resolveStep] using hdir
  · rw [if_neg hdir]
    split_ifs
    · rw [Option.bind_some, resolveStep_name hid]
      split_ifs
      · simpa [FileSystem.resolveStep] using hdir
      · rfl
    · rfl

end Place

section Walk
variable {sub : Dir}

/-- The files of a walk, by their paths below its top. -/
theorem walkedFiles_eq {dir : Str} (hres : fs.resolve dir = some (M ++ [aliasName, id]))
    (hnode : fs.root.node (M ++ [aliasName, id]) = some (.dir sub)) :
    walkedFiles fs.toLocalFs dir = sub.files.map fun f => joined f.1 := by
  have hne := (fs.resolve_eq_some hres).1
  have hlook : fs.lookup dir = some (.dir sub) := Option.bind_eq_some_iff.2 ⟨_, hres, hnode⟩
  have hwalk : fs.toLocalFs.walk dir = sub.walk pathJoin dir := by
    simp only [FileSystem.toLocalFs, hlook]
  have hvalid := fs.valid.of_node hnode
  have hmap : walkedFiles fs.toLocalFs dir =
      ((sub.walk pathJoin dir).flatMap fun e => e.2.map (pathJoin e.1)).map
        fun p => fs.toLocalFs.relpath p dir := by
    unfold walkedFiles
    rw [hwalk, List.map_flatMap]
    simp only [List.map_map, Function.comp_def]
  rw [hmap, FileTree.flatMap_walk, List.map_map]
  apply List.map_congr_left
  rintro ⟨q, c⟩ hq
  have hnode' := (FileTree.mem_files hvalid).1 hq
  exact relpath_foldl hne hres hnode (FileTree.ok_of_mem_files hvalid hq).1 hnode'

/-- The directory of a run on the mount holds the run's files. -/
theorem Mirrors.files_perm (h : Mirrors fs.root M bucket)
    (hnode : fs.root.node (M ++ [aliasName, id]) = some (.dir sub)) (ha : IsName aliasName)
    (hid : IsName id) (hnames : ∀ f ∈ expected, f.1 ≠ [] ∧ ∀ n ∈ f.1, IsName n)
    (hnd : (expected.map Prod.fst).Nodup)
    (hfiles : ∀ name c, (bucket.get (runPrefix aliasName id ++ name)).map Obj.body = some c ↔
      ∃ f ∈ expected, joined f.1 = name ∧ f.2 = c) : sub.files.Perm expected := by
  have hvalid := fs.valid.of_node hnode
  apply (List.perm_ext_iff_of_nodup (FileTree.nodup_files hvalid).of_map hnd.of_map).2
  rintro ⟨q, c⟩
  rw [FileTree.mem_files_iff hvalid, ← FileTree.fileAt_append hnode]
  constructor
  · intro hfile
    have hmem := (FileTree.mem_files_iff hvalid).2 (by rwa [FileTree.fileAt_append hnode] at hfile)
    obtain ⟨hq, hqn⟩ := FileTree.ok_of_mem_files hvalid hmem
    have hall : ∀ n ∈ [aliasName, id] ++ q, IsName n := by
      simpa [or_imp, forall_and, ha, hid] using hqn
    rw [List.append_assoc, h.files _ (by simp) hall, joined_below hq] at hfile
    obtain ⟨f, hf, hj, rfl⟩ := (hfiles _ _).1 hfile
    have hfq := joined_inj (hnames f hf) ⟨hq, hqn⟩ hj
    subst hfq
    exact hf
  · intro hmem
    obtain ⟨hq, hqn⟩ := hnames _ hmem
    have hall : ∀ n ∈ [aliasName, id] ++ q, IsName n := by
      simpa [or_imp, forall_and, ha, hid] using hqn
    rw [List.append_assoc, h.files _ (by simp) hall, joined_below hq]
    exact (hfiles _ _).2 ⟨_, hmem, rfl, rfl⟩

/-- A run's directory is there when the run has a file. -/
theorem Mirrors.isDir_iff (h : Mirrors fs.root M bucket) (ha : IsName aliasName)
    (hid : IsName id) (hnames : ∀ f ∈ expected, f.1 ≠ [] ∧ ∀ n ∈ f.1, IsName n)
    (hfiles : ∀ name c, (bucket.get (runPrefix aliasName id ++ name)).map Obj.body = some c ↔
      ∃ f ∈ expected, joined f.1 = name ∧ f.2 = c) :
    fs.root.isDir (M ++ [aliasName, id]) = true ↔ expected ≠ [] := by
  constructor
  · rintro hdir rfl
    obtain ⟨q, hq, hfile⟩ := h.dirs [aliasName, id] (by simp) hdir
    obtain ⟨c, hc⟩ := Option.isSome_iff_exists.1 hfile
    obtain ⟨sub, hnode⟩ := FileTree.isDir_iff.1 hdir
    have hvalid := fs.valid.of_node hnode
    have hmem := (FileTree.mem_files_iff hvalid).2 (by rwa [FileTree.fileAt_append hnode] at hc)
    have hqn := (FileTree.ok_of_mem_files hvalid hmem).2
    have hall : ∀ n ∈ [aliasName, id] ++ q, IsName n := by
      simpa [or_imp, forall_and, ha, hid] using hqn
    rw [List.append_assoc, h.files _ (by simp) hall, joined_below hq] at hc
    obtain ⟨f, hf, -⟩ := (hfiles _ _).1 hc
    cases hf
  · intro hne
    obtain ⟨f, fs', rfl⟩ := List.exists_cons_of_ne_nil hne
    obtain ⟨hq, hqn⟩ := hnames f List.mem_cons_self
    have hall : ∀ n ∈ [aliasName, id] ++ f.1, IsName n := by
      simpa [or_imp, forall_and, ha, hid] using hqn
    have hget := (hfiles (joined f.1) f.2).2 ⟨f, List.mem_cons_self, rfl, rfl⟩
    rw [← joined_below hq, ← h.files _ (by simp) hall, ← List.append_assoc] at hget
    exact FileTree.isDir_of_fileAt hget hq

end Walk

section History
variable {reader store : Store} {producer : FileSystem} {args : LogArgs} {ref : RunRef}
  {files : List (List Str × Bytes)}

/-- What `stage` answers for a run with these files: it lists them all, or fails when there are
none. -/
def StagedAs (id : Str) (chip : Option Str) (dir : Str) (files : List (List Str × Bytes))
    (r : Except PyExc Staged) : Prop :=
  (files = [] → ∃ e, r = .error e) ∧
    (files ≠ [] → r = .ok ⟨id, chip, dir,
      (files.map fun f => joined f.1).insertionSort (· ≤ ·), files.length⟩)

/-- The sorted list does not depend on the order of the walk. -/
theorem insertionSort_perm {xs ys : List Str} (h : xs.Perm ys) :
    xs.insertionSort (· ≤ ·) = ys.insertionSort (· ≤ ·) := by
  apply List.Perm.eq_of_pairwise' (List.pairwise_insertionSort _ _)
    (List.pairwise_insertionSort _ _)
  exact (List.perm_insertionSort _ _).trans (h.trans (List.perm_insertionSort _ _).symm)

theorem locate_place {uri key : Str} (hmount : reader.mountBase = some mount) (hne : mount ≠ [])
    (huri : ref.artifactsUri = some uri) (huri' : uri ≠ [])
    (hparse : parseS3Uri uri = .ok ⟨reader.traceBucket.name, key⟩) :
    locate reader ref = .ok (pathJoin mount key) := by
  unfold locate localDirForMount
  simp only [hmount, huri, Option.getD_some, if_neg hne, if_neg huri', hparse]
  exact if_neg (not_not.2 rfl)

theorem stagedDir_there {dir : Str} (hloc : locate reader ref = .ok dir)
    (hdir : fs.toLocalFs.isdir dir = true) : stagedDir reader fs ref = .ok dir := by
  unfold stagedDir
  rw [hloc]
  exact if_pos hdir

/-- Where the directory is missing, the mount or the run is blamed. -/
theorem stagedDir_missing {dir : Str} (hloc : locate reader ref = .ok dir)
    (hdir : fs.toLocalFs.isdir dir = false) : ∃ e, stagedDir reader fs ref = .error e := by
  unfold stagedDir
  rw [hloc]
  show ∃ e, (if fs.toLocalFs.isdir dir then _ else _) = _
  rw [hdir, if_neg Bool.false_ne_true]
  cases truthy reader.mountBase with
  | none => exact ⟨_, rfl⟩
  | some base =>
    dsimp only
    split_ifs
    · exact ⟨_, rfl⟩
    · exact ⟨_, rfl⟩
    · exact ⟨_, rfl⟩

theorem stageRun_stagedAs (hres : fs.resolve mount = some M) (hmirror : Mirrors fs.root M bucket)
    (hloc : locate reader ref = .ok (pathJoin mount (runPrefix aliasName id)))
    (ha : IsName aliasName) (hid : IsName id)
    (hnames : ∀ f ∈ files, f.1 ≠ [] ∧ ∀ n ∈ f.1, IsName n) (hnd : (files.map Prod.fst).Nodup)
    (hfiles : ∀ name c, (bucket.get (runPrefix aliasName id ++ name)).map Obj.body = some c ↔
      ∃ f ∈ files, joined f.1 = name ∧ f.2 = c) :
    StagedAs id ref.chip (pathJoin mount (runPrefix aliasName id)) files
      (stageRun reader fs id ref) := by
  have hplace := resolve_runDir hres ha hid
  have hiff := hmirror.isDir_iff ha hid hnames hfiles
  constructor
  · intro hnil
    have hdir : ¬ fs.root.isDir (M ++ [aliasName, id]) = true := fun h => hiff.1 h hnil
    have hmissing : fs.toLocalFs.isdir (pathJoin mount (runPrefix aliasName id)) = false := by
      rw [if_neg hdir] at hplace
      simp only [FileSystem.toLocalFs, FileSystem.lookup, hplace, Option.bind_none]
    obtain ⟨e, he⟩ := stagedDir_missing hloc hmissing
    exact ⟨e, by rw [stageRun, he]; rfl⟩
  · intro hne
    have hdir := hiff.2 hne
    obtain ⟨sub, hnode⟩ := FileTree.isDir_iff.1 hdir
    rw [if_pos hdir] at hplace
    have hthere : fs.toLocalFs.isdir (pathJoin mount (runPrefix aliasName id)) = true := by
      simp only [FileSystem.toLocalFs, FileSystem.lookup, hplace, Option.bind_some, hnode]
    have hperm := hmirror.files_perm hnode ha hid hnames hnd hfiles
    have hnamed := hperm.map fun f => joined f.1
    rw [stageRun, stagedDir_there hloc hthere]
    show Except.ok _ = _
    rw [walkedFiles_eq hplace hnode, insertionSort_perm hnamed, hnamed.length_eq, List.length_map]

end History

section Sample

/-- The bucket with the one file of the sample run. -/
def sampleMounted : Dir :=
  .dir ['a'] (.dir (sampleRunId '0') (.file ['x'] [1] .empty) .empty) .empty

def mountMachine : FileSystem where
  root := .dir "mnt".toList sampleMounted .empty
  cwd := []
  valid := by decide
  cwd_isDir := rfl
  sha256 := fun _ => ([], [])

theorem loggedWorld_entries : ((loggedWorld.s3 ['b']).entries.map fun e => (e.1, e.2.body)) =
    [(joined [['a'], sampleRunId '0', ['x']], [1])] := by
  decide +kernel

theorem sampleMounted_isDir {q : List Str} (hq : q ≠ []) (h : sampleMounted.isDir q = true) :
    q = [['a']] ∨ q = [['a'], sampleRunId '0'] := by
  obtain ⟨n, q, rfl⟩ := List.exists_cons_of_ne_nil hq
  rw [FileTree.isDir_cons] at h
  by_cases hn : ['a'] = n
  · subst hn
    cases q with
    | nil => exact .inl rfl
    | cons m q =>
      have h : (FileTree.dir (sampleRunId '0') (.file ['x'] [1] .empty) .empty : Dir).isDir
        (m :: q) = true := h
      rw [FileTree.isDir_cons] at h
      by_cases hm : sampleRunId '0' = m
      · subst hm
        cases q with
        | nil => exact .inr rfl
        | cons k q =>
          have h : (FileTree.file ['x'] [1] .empty : Dir).isDir (k :: q) = true := h
          rw [FileTree.isDir_cons] at h
          by_cases hk : ['x'] = k
          · subst hk
            cases h
          · simp [FileTree.find, hk] at h
      · simp [FileTree.find, hm] at h
  · simp [sampleMounted, FileTree.find, hn] at h

theorem mountMachine_mirrors :
    Mirrors mountMachine.root ["mnt".toList] (loggedWorld.s3 ['b']) := by
  have hnode : mountMachine.root.node ["mnt".toList] = some (.dir sampleMounted) := rfl
  have hfiles : sampleMounted.files = [([['a'], sampleRunId '0', ['x']], [1])] := rfl
  have hvalid : sampleMounted.Valid IsName := mountMachine.valid.of_node hnode
  have hnames : ∀ n ∈ [['a'], sampleRunId '0', ['x']], IsName n := by decide
  refine ⟨rfl, fun q hq hqn => ?_, fun q hq hdir => ?_⟩
  · rw [FileTree.fileAt_append hnode]
    apply Option.ext
    intro c
    rw [← FileTree.mem_files_iff hvalid, hfiles, List.mem_singleton, Option.map_eq_some_iff]
    constructor
    · intro heq
      obtain ⟨rfl, rfl⟩ := Prod.mk.inj heq
      have hmem : (joined [['a'], sampleRunId '0', ['x']], ([1] : Bytes)) ∈
          (loggedWorld.s3 ['b']).entries.map fun e => (e.1, e.2.body) := by
        rw [loggedWorld_entries]
        exact List.mem_singleton_self _
      obtain ⟨⟨k, obj⟩, he, heq⟩ := List.mem_map.1 hmem
      obtain ⟨rfl, hbody⟩ := Prod.mk.inj heq
      exact ⟨obj, SortedMap.get_eq_some.2 he, hbody⟩
    · rintro ⟨obj, hget, rfl⟩
      have hmem : (joined q, obj.body) ∈
          (loggedWorld.s3 ['b']).entries.map fun e => (e.1, e.2.body) :=
        List.mem_map.2 ⟨_, SortedMap.get_eq_some.1 hget, rfl⟩
      rw [loggedWorld_entries, List.mem_singleton] at hmem
      obtain ⟨hk, hbody⟩ := Prod.mk.inj hmem
      rw [joined_inj ⟨hq, hqn⟩ ⟨by simp, hnames⟩ hk, hbody]
  · rw [FileTree.isDir_append hnode] at hdir
    rcases sampleMounted_isDir hq hdir with rfl | rfl
    · exact ⟨[sampleRunId '0', ['x']], by simp, by decide⟩
    · exact ⟨[['x']], by simp, by decide⟩

theorem uses_stage (reader : Store) (fs : FileSystem) (id : Str) :
    (stage reader fs id).Uses LookupCall := by
  refine ((uses_resolve id .id false).bind fun runs => ?_).bind fun run => ?_
  · cases runs with
    | nil => trivial
    | cons run runs => trivial
  · cases stageRun reader fs id run with
    | ok staged => trivial
    | error e => trivial

end Sample

end Accel.Model
