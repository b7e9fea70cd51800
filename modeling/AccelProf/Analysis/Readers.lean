import AccelProf.Analysis.Escape
import AccelProf.Analysis.Templates
import AccelProf.Layout.Mount
import AccelProf.Model.Tools

/-! What the service reads of a run on the mount: it stays below the mount when the run's key does
and no pattern climbs past the mount. -/

namespace Accel.Model
open Data

variable {fs : FileSystem} {store : Store} {run : RunRef} {patterns : Set Str} {mount dir p : Str}
  {q : List Str}

section Opens

/-- The directories and files that a walk of `dir` comes by. -/
def visited (fs : LocalFs) (dir : Str) : List Str :=
  (fs.walk dir).flatMap fun entry => entry.1 :: entry.2.map (pathJoin entry.1)

/-- The pattern that a token of a template looks for. -/
def tokenGlob (tok : Str) : Option Str :=
  if embeds tok then none else (selector fileWord tok).or (selector filesWord tok)

def Analyzer.template : Analyzer → List Str
  | .command _ argv _ => argv
  | .server _ start _ query _ _ => start ++ query

def Registered.template : Registered → List Str
  | .inventory => []
  | .configured a => a.template

/-- The paths that the service opens or hands out for a run: what `stage`, and with it `analyze`,
walks, the matches of `resolve_artifacts`, and the matches in the templates of an analyzer. -/
inductive Opens (store : Store) (fs : FileSystem) (patterns : Set Str) (run : RunRef) :
    Str → Prop where
  | walk {runId p : Str} {staged : Staged} (h : stageRun store fs runId run = .ok staged)
      (hp : p ∈ visited fs.toLocalFs staged.dir) : Opens store fs patterns run p
  | found {pattern p : Str} {res : ResolvedArtifacts} (hpat : pattern ∈ patterns)
      (h : artifactsOf store fs pattern run = .ok res) (hp : p ∈ res.found) :
      Opens store fs patterns run p
  | argument {runId tok glob tmpDir p : Str} {staged : Staged} {fn : Registered} {items : List Str}
      (h : stageRun store fs runId run = .ok staged) (htok : tok ∈ fn.template)
      (hglob : tokenGlob tok = some glob) (hpat : glob ∈ patterns)
      (hitems : expandToken fs staged.dir tmpDir tok = .ok items) (hp : p ∈ items) :
      Opens store fs patterns run p

/-- `p` lies strictly below the mount. -/
def Below (fs : FileSystem) (mount p : Str) : Prop :=
  realComponents (slashed fs.cwd) mount <+: realComponents (slashed fs.cwd) p ∧
    realComponents (slashed fs.cwd) p ≠ realComponents (slashed fs.cwd) mount

theorem isdir_iff : fs.toLocalFs.isdir dir = true ↔
    ∃ q, fs.resolve dir = some q ∧ fs.root.isDir q = true := by
  cases hres : fs.resolve dir with
  | none =>
    have hlookup : fs.lookup dir = none := by rw [FileSystem.lookup, hres, Option.bind_none]
    simp [FileSystem.toLocalFs, hlookup]
  | some q =>
    have hlookup : fs.lookup dir = fs.root.node q := by
      rw [FileSystem.lookup, hres, Option.bind_some]
    simp only [FileSystem.toLocalFs, hlookup, Option.some.injEq, exists_eq_left', FileTree.isDir]
    cases fs.root.node q with
    | none => simp
    | some x => cases x <;> simp

theorem stagedDir_ok (h : stagedDir store fs run = .ok dir) :
    locate store run = .ok dir ∧ fs.toLocalFs.isdir dir = true := by
  unfold stagedDir at h
  obtain ⟨dir', hloc, hrest⟩ := except_bind_ok.1 h
  by_cases hdir : fs.toLocalFs.isdir dir' = true
  · rw [if_pos hdir] at hrest
    obtain rfl := Except.ok.inj hrest
    exact ⟨hloc, hdir⟩
  · rw [if_neg hdir] at hrest
    split at hrest
    · cases hrest
    · split_ifs at hrest

theorem stageRun_dir {runId : Str} {staged : Staged}
    (h : stageRun store fs runId run = .ok staged) :
    locate store run = .ok staged.dir ∧ fs.toLocalFs.isdir staged.dir = true := by
  obtain ⟨dir, hdir, hrest⟩ := except_bind_ok.1 h
  obtain rfl := Except.ok.inj hrest
  exact stagedDir_ok hdir

theorem artifactsOf_ok {pattern : Str} {res : ResolvedArtifacts} :
    artifactsOf store fs pattern run = .ok res ↔ ∃ dir found, stagedDir store fs run = .ok dir ∧
      findMatches fs dir pattern = .ok found ∧
      res = ⟨run.runId, run.chip, dir, pattern, found⟩ := by
  unfold artifactsOf
  constructor
  · intro h
    obtain ⟨dir, hdir, h⟩ := except_bind_ok.1 h
    obtain ⟨found, hfound, h⟩ := except_bind_ok.1 h
    exact ⟨dir, found, hdir, hfound, (Except.ok.inj h).symm⟩
  · rintro ⟨dir, found, hdir, hfound, rfl⟩
    exact except_bind_ok.2 ⟨dir, hdir, except_bind_ok.2 ⟨found, hfound, rfl⟩⟩

theorem expandToken_glob {tok glob tmpDir : Str} {items : List Str}
    (hglob : tokenGlob tok = some glob) (h : expandToken fs dir tmpDir tok = .ok items) :
    findMatches fs dir glob = .ok items := by
  unfold tokenGlob at hglob
  split_ifs at hglob with he
  rw [Bool.not_eq_true] at he
  cases hs : selector fileWord tok with
  | some g =>
    rw [hs, Option.some_or] at hglob
    obtain rfl := Option.some.inj hglob
    rw [expandToken_file he hs] at h
    obtain ⟨found, hfound, h⟩ := except_bind_ok.1 h
    split_ifs at h
    rw [hfound, ← Except.ok.inj h]
  | none =>
    rw [hs, Option.none_or] at hglob
    rw [expandToken_files he hglob hs] at h
    obtain ⟨found, hfound, h⟩ := except_bind_ok.1 h
    split_ifs at h
    rw [hfound, ← Except.ok.inj h]

theorem realComponents_foldl (hdir : dir ≠ []) {names : List Str} (h : ∀ n ∈ names, IsName n) :
    realComponents (slashed fs.cwd) (names.foldl pathJoin dir) =
      realComponents (slashed fs.cwd) dir ++ names := by
  induction names generalizing dir with
  | nil => simp
  | cons n names ih =>
    obtain ⟨hn, hrest⟩ := List.forall_mem_cons.1 h
    have hsplit : n.splitOn '/' = [n] := by
      have hslash : ∀ c ∈ [n], '/' ∉ c := fun c hc => List.mem_singleton.1 hc ▸ hn.slash_not_mem
      rw [← joined_singleton n, splitOn_joined (by simp) hslash, joined_singleton]
    rw [List.foldl_cons, ih (pathJoin_ne_nil hdir n) hrest,
      realComponents_pathJoin _ hdir hn.head_ne, hsplit, List.foldl_cons, List.foldl_nil,
      normStep_name hn, List.append_assoc, List.singleton_append]

/-- A walk stays at and below the directory it starts from. -/
theorem visited_below (hres : fs.resolve dir = some q) (hq : fs.root.isDir q = true)
    (hp : p ∈ visited fs.toLocalFs dir) : q <+: realComponents (slashed fs.cwd) p := by
  have hne : dir ≠ [] := (fs.resolve_eq_some hres).1
  obtain ⟨d, hd⟩ := FileTree.isDir_iff.1 hq
  have hwalk : fs.toLocalFs.walk dir = d.walk pathJoin dir := by
    simp only [FileSystem.toLocalFs, FileSystem.lookup, hres, Option.bind_some, hd]
  have hvalid := fs.valid.of_node hd
  have hnames : ∃ names : List Str, p = names.foldl pathJoin dir ∧ ∀ n ∈ names, IsName n := by
    obtain ⟨entry, hentry, hp⟩ := List.mem_flatMap.1 hp
    rw [hwalk] at hentry
    rcases List.mem_cons.1 hp with rfl | hp
    · obtain ⟨names, he, hdir⟩ := (FileTree.mem_walk hvalid).1 (List.mem_map_of_mem hentry)
      obtain ⟨sub, hsub⟩ := FileTree.isDir_iff.1 hdir
      exact ⟨names, he, FileTree.ok_of_node hvalid hsub⟩
    · have hfile : p ∈ (d.walk pathJoin dir).flatMap fun e => e.2.map (pathJoin e.1) :=
        List.mem_flatMap.2 ⟨entry, hentry, hp⟩
      rw [FileTree.flatMap_walk] at hfile
      obtain ⟨f, hf, rfl⟩ := List.mem_map.1 hfile
      exact ⟨f.1, rfl, (FileTree.ok_of_mem_files hvalid hf).2⟩
  obtain ⟨names, rfl, hnames⟩ := hnames
  rw [realComponents_foldl hne hnames, realComponents_of_resolve hres]
  exact List.prefix_append _ _

/-- From a directory strictly below the mount, a search hands out only what is below the mount,
unless its pattern climbs past the mount. -/
theorem found_below_iff {m : List Str} {pattern : Str} (hres : fs.resolve dir = some q)
    (hq : fs.root.isDir q = true) (hmount : realComponents (slashed fs.cwd) mount = m)
    (hm : m <+: q) :
    (∀ found, findMatches fs dir pattern = .ok found → ∀ p ∈ found, Below fs mount p) ↔
      Refuses pattern ∨ ¬ ClimbsPast fs.root m q pattern := by
  by_cases href : Refuses pattern
  · obtain ⟨err, he⟩ : ∃ err, findMatches fs dir pattern = .error err := findMatches_refused href
    refine iff_of_true (fun found hfound => ?_) (.inl href)
    cases he.symm.trans hfound
  obtain ⟨found, hfound, -, -, hreach⟩ := findMatches_ok hres hq href
  rw [or_iff_right href, ← leads_below_iff hm hq]
  constructor
  · intro hbelow e hfile hlead
    obtain ⟨p, hp, rfl⟩ := (hreach e).2 ⟨hfile, hlead⟩
    exact hmount ▸ (hbelow found hfound p hp).1
  · intro hbelow found' hfound' p hp
    obtain rfl := Except.ok.inj (hfound.symm.trans hfound')
    obtain ⟨hfile, hlead⟩ := (hreach (realComponents (slashed fs.cwd) p)).1 ⟨p, hp, rfl⟩
    refine ⟨hmount ▸ hbelow _ hfile hlead, fun he => ?_⟩
    rw [he, hmount, FileTree.fileAt_of_isDir (FileTree.isDir_of_prefix hq hm)] at hfile
    cases hfile

end Opens

section Sample

/-- A run whose record holds the given URI. -/
def taggedRun (uri : Str) : RunRef where
  runId := ['r']
  status := some .finished
  aliasName := none
  chip := none
  region := none
  workloadId := none
  artifactsUri := some uri
  startTime := none
  lifecycleStage := .active
  metrics := fun _ => none
  params := fun _ => none
  tags := fun _ => none

/-- A mount `/m` with a file in the directory of each of two runs, and a file `/s` beside it. -/
def besideMount : FileSystem where
  root := .dir ['m'] (.dir ['1'] (.file ['x'] [1] .empty) <| .dir ['2'] (.file ['y'] [2] .empty)
    .empty) (.file ['s'] [3] .empty)
  cwd := []
  valid := by decide
  cwd_isDir := rfl
  sha256 := fun _ => ([], [])

def besideStore : Store := ⟨sampleBucket, some "/m".toList, none⟩

end Sample

end Accel.Model
