import AccelProf.Layout.Paths
import AccelProf.Store.Effects

/-! The files an upload plans, told from the producer's file system: every file of every artifact,
under its path below the artifact. -/

namespace Accel.Model
open Data

variable {fs : FileSystem} {p t n comp : Str} {q cur ns comps : List Str} {d : Dir} {c : Bytes}

section Resolve

theorem FileSystem.cwd_names (fs : FileSystem) : ∀ n ∈ fs.cwd, IsName n := by
  obtain ⟨sub, hsub⟩ := FileTree.isDir_iff.1 fs.cwd_isDir
  exact FileTree.ok_of_node fs.valid hsub

theorem resolveStep_name {root : Dir} (hn : IsName n) : FileSystem.resolveStep root cur n =
    if root.isDir cur ∧ (root.node (cur ++ [n])).isSome then some (cur ++ [n]) else none := by
  unfold FileSystem.resolveStep
  simp only [hn.1, hn.2.1, hn.2.2.1, or_self, if_false]
  by_cases h : root.isDir cur <;> simp [h]

/-- What the kernel finds is what normalising finds. -/
theorem normStep_of_resolveStep {root : Dir} (hroot : root.Valid IsName)
    (hcur : ∀ n ∈ cur, IsName n)
    {cur' : List Str} (h : FileSystem.resolveStep root cur comp = some cur') :
    normStep true cur comp = cur' ∧ ∀ n ∈ cur', IsName n := by
  unfold FileSystem.resolveStep at h
  split_ifs at h with hdir h₁ h₂ h₃
  · obtain rfl := Option.some.inj h
    unfold normStep
    exact ⟨if_pos h₁, hcur⟩
  · obtain rfl := Option.some.inj h
    have hlast : cur.getLast? ≠ some dotDot :=
      fun hl => (hcur _ (List.mem_of_getLast? hl)).2.2.1 rfl
    unfold normStep
    refine ⟨?_, fun n hn => hcur n (List.mem_of_mem_dropLast hn)⟩
    rw [if_neg h₁, if_neg (by simp [h₂, hlast])]
  · obtain rfl := Option.some.inj h
    obtain ⟨x, hx⟩ := Option.isSome_iff_exists.1 h₃
    have hnames := FileTree.ok_of_node hroot hx
    exact ⟨normStep_name (hnames comp (by simp)) true cur, hnames⟩

theorem foldl_of_foldlM {root : Dir} (hroot : root.Valid IsName) (hcur : ∀ n ∈ cur, IsName n)
    (h : comps.foldlM (FileSystem.resolveStep root) cur = some q) :
    comps.foldl (normStep true) cur = q := by
  induction comps generalizing cur with
  | nil => exact Option.some.inj h
  | cons comp comps ih =>
    rw [List.foldlM_cons] at h
    obtain ⟨cur', hstep, hrest⟩ := Option.bind_eq_some_iff.1 h
    obtain ⟨hnorm, hcur'⟩ := normStep_of_resolveStep hroot hcur hstep
    rw [List.foldl_cons, hnorm]
    exact ih hcur' hrest

theorem FileSystem.resolve_eq_some (h : fs.resolve p = some q) : p ≠ [] ∧
    (p.splitOn '/').foldlM (FileSystem.resolveStep fs.root)
    (if p.head? = some '/' then [] else fs.cwd) =
      some q := by
  unfold FileSystem.resolve at h
  split_ifs at h with hp hh
  · exact ⟨hp, by rwa [if_pos hh]⟩
  · exact ⟨hp, by rwa [if_neg hh]⟩

/-- A path that resolves leads where its normalised form says. -/
theorem realComponents_of_resolve (h : fs.resolve p = some q) :
    realComponents (slashed fs.cwd) p = q := by
  obtain ⟨-, hfold⟩ := fs.resolve_eq_some h
  unfold realComponents
  by_cases hh : p.head? = some '/'
  · rw [if_pos hh] at hfold
    rw [pathJoin_of_absolute _ hh]
    exact foldl_of_foldlM fs.valid (by simp) hfold
  · rw [if_neg hh] at hfold
    rw [foldl_pathJoin fs.cwd_names hh]
    exact foldl_of_foldlM fs.valid fs.cwd_names hfold

theorem head?_append (ht : t ≠ []) (s : Str) : (t ++ s).head? = t.head? :=
    List.head?_append_of_ne_nil _ ht

theorem foldlM_concat (f : List Str → Str → Option (List Str)) (xs : List Str) (x : Str) :
    (xs ++ [x]).foldlM f cur = (xs.foldlM f cur).bind fun cur => f cur x := by
  rw [List.foldlM_append]
  show (xs.foldlM f cur).bind (fun cur => (f cur x).bind some) = _
  simp

/-- A trailing slash asks for a directory and leads nowhere else. -/
theorem resolve_concat (ht : t ≠ []) : fs.resolve (t ++ ['/']) =
    (fs.resolve t).bind fun q => FileSystem.resolveStep fs.root q [] := by
  have happ : t ++ ['/'] ≠ [] := by simp
  unfold FileSystem.resolve
  rw [if_neg happ, if_neg ht, head?_append ht, List.splitOn_append_cons_self, List.splitOn_nil,
    foldlM_concat]

theorem resolveStep_nil {root : Dir} {cur cur' : List Str}
    (h : FileSystem.resolveStep root cur [] = some cur') : cur' = cur := by
  unfold FileSystem.resolveStep at h
  split_ifs at h <;> simp_all

theorem resolve_pathJoin (ht : t ≠ []) (hn : IsName n) : fs.resolve (pathJoin t n) =
    (fs.resolve t).bind fun q => FileSystem.resolveStep fs.root q n := by
  have hsingle : n.splitOn '/' = [n] := List.splitOn_eq_singleton hn.slash_not_mem
  unfold pathJoin
  rw [if_neg hn.head_ne]
  by_cases hl : t.getLast? = some '/'
  · obtain ⟨t', rfl⟩ : ∃ t', t = t' ++ ['/'] := ⟨_, (List.dropLast_append_getLast? _ hl).symm⟩
    rw [if_pos (.inr hl), List.append_assoc, List.singleton_append]
    have happ : t' ++ '/' :: n ≠ [] := by simp
    have hhead : (t' ++ '/' :: n).head? = (t' ++ ['/']).head? := by
      cases t' <;> rfl
    unfold FileSystem.resolve
    rw [if_neg happ, if_neg ht, hhead, List.splitOn_append_cons_self, List.splitOn_append_cons_self,
      hsingle, List.splitOn_nil, foldlM_concat, foldlM_concat, Option.bind_assoc]
    congr 1
    funext cur
    -- the empty component before the name asks for the directory that the name needs anyway
    by_cases hdir : fs.root.isDir cur <;> simp [FileSystem.resolveStep, hdir]
  · have happ : t ++ '/' :: n ≠ [] := by simp
    rw [if_neg (not_or.2 ⟨ht, hl⟩)]
    unfold FileSystem.resolve
    rw [if_neg happ, if_neg ht, head?_append ht, List.splitOn_append_cons_self, hsingle,
      foldlM_concat]

theorem pathJoin_ne_nil (ht : t ≠ []) (n : Str) : pathJoin t n ≠ [] := by
  unfold pathJoin
  split_ifs with h
  · rintro rfl
    cases h
  · simp [ht]
  · simp

theorem resolve_foldl (ht : t ≠ []) (hq : fs.resolve t = some q)
    (hd : fs.root.node q = some (.dir d))
    {x : Node Str Bytes} (hx : d.node ns = some x) :
    fs.resolve (ns.foldl pathJoin t) = some (q ++ ns) := by
  induction ns generalizing t q d with
  | nil => simpa using hq
  | cons n ns ih =>
    have hdir : fs.root.isDir q = true := FileTree.isDir_iff.2 ⟨d, hd⟩
    have hvalid := fs.valid.of_node hd
    have hn : IsName n := FileTree.ok_of_node hvalid hx n (by simp)
    have hnode : fs.root.node (q ++ [n]) = d.node [n] := FileTree.node_append q [n] _ hd
    rw [FileTree.node] at hx
    have hstep : ∀ y, d.find n = some y → fs.resolve (pathJoin t n) = some (q ++ [n]) :=
      fun y hy => by
      have hsome : (fs.root.node (q ++ [n])).isSome := by
        rw [hnode, FileTree.node, hy]
        cases y <;> rfl
      rw [resolve_pathJoin ht hn, hq, Option.bind_some, resolveStep_name hn, if_pos ⟨hdir, hsome⟩]
    rw [List.foldl_cons]
    cases hf : d.find n with
    | none =>
      rw [hf] at hx
      cases hx
    | some y =>
      rw [hf] at hx
      cases y with
      | file c =>
        simp only at hx
        split_ifs at hx with hns
        subst hns
        exact hstep _ hf
      | dir sub =>
        have hsub : fs.root.node (q ++ [n]) = some (.dir sub) := by
          rw [hnode, FileTree.node, hf]
          rfl
        have := ih (pathJoin_ne_nil ht n) (hstep _ hf) hsub hx
        simpa using this

/-- The base of a walk, `path.rstrip("/") or "/"`, is where the path itself leads. -/
theorem resolve_base (h : fs.resolve p = some q) :
    fs.resolve (if rstrip '/' p = [] then ['/'] else rstrip '/' p) = some q := by
  induction p using List.reverseRecOn with
  | nil => exact absurd rfl (fs.resolve_eq_some h).1
  | append_singleton t c ih =>
    by_cases hc : c = '/'
    · subst hc
      rw [rstrip_concat]
      by_cases ht : t = []
      · subst ht
        exact h
      · rw [resolve_concat ht] at h
        obtain ⟨cur, hcur, hstep⟩ := Option.bind_eq_some_iff.1 h
        exact ih (hcur.trans (congrArg some (resolveStep_nil hstep).symm))
    · have hstrip : rstrip '/' (t ++ [c]) = t ++ [c] :=
        rstrip_append (by simp) (by simpa using Ne.symm hc) t
      rw [hstrip, if_neg (by simp)]
      exact h

end Resolve

section Relative

theorem pathJoin_cwd_absolute (fs : FileSystem) (p : Str) :
    (pathJoin (slashed fs.cwd) p).head? = some '/' := by
  by_cases hh : p.head? = some '/'
  · rwa [pathJoin_of_absolute _ hh]
  · rw [pathJoin_slashed fs.cwd_names hh]
    split_ifs <;> rfl

theorem components_slashes (h : ∀ n ∈ ns, IsName n) (k : ℕ) :
    LocalFs.components (List.replicate k '/' ++ joined ns) = ns := by
  unfold LocalFs.components
  induction k with
  | zero =>
    rw [List.replicate_zero, List.nil_append]
    by_cases hne : ns = []
    · subst hne
      rfl
    · rw [splitOn_joined hne (slash_not_mem_of_names h)]
      exact List.filter_eq_self.2 fun n hn => by simpa using (h n hn).ne_nil
  | succ k ih =>
    have happ : List.replicate (k + 1) '/' ++ joined ns = [] ++ '/' ::
        (List.replicate k '/' ++ joined ns) := rfl
    rw [happ, List.splitOn_append_cons_self, List.filter_append, ih]
    rfl

theorem components_abspath (fs : FileSystem) (p : Str) :
    LocalFs.components (fs.toLocalFs.abspath p) = realComponents (slashed fs.cwd) p := by
  have habs := pathJoin_cwd_absolute fs p
  obtain ⟨rest, hrest⟩ : ∃ rest, pathJoin (slashed fs.cwd) p = '/' :: rest := by
    cases hj : pathJoin (slashed fs.cwd) p with
    | nil => simp [hj] at habs
    | cons x xs =>
      rw [hj] at habs
      exact ⟨xs, by rw [Option.some.inj habs]⟩
  have hnames := realComponents_names (slashed fs.cwd) p
  unfold realComponents at hnames ⊢
  show LocalFs.components (normpath (pathJoin (slashed fs.cwd) p)) = _
  have hslash : ∀ k : ℕ, k ≠ 0 → List.replicate k '/' ++ joined
      (((pathJoin (slashed fs.cwd) p).splitOn '/').foldl (normStep true) []) ≠ [] := fun k hk => by
    obtain ⟨m, rfl⟩ := Nat.exists_eq_succ_of_ne_zero hk
    simp [List.replicate_succ]
  have htake : ¬ (pathJoin (slashed fs.cwd) p).take 1 ≠ ['/'] := by
    rw [hrest]
    simp
  unfold normpath
  simp only [if_neg htake]
  split_ifs with h₁ h₂ h₂
  · exact absurd h₂ (hslash 2 (by decide))
  · exact components_slashes hnames 2
  · exact absurd h₂ (hslash 1 (by decide))
  · exact components_slashes hnames 1

theorem commonLength_append (xs ys : List Str) :
    LocalFs.commonLength xs (xs ++ ys) = xs.length := by
  induction xs with
  | nil => cases ys <;> rfl
  | cons x xs ih =>
    show (if x = x then LocalFs.commonLength xs (xs ++ ys) + 1 else 0) = _
    rw [if_pos rfl, ih, List.length_cons]

theorem relpath_eq {start : Str} (hne : ns ≠ [])
    (h : realComponents (slashed fs.cwd) p = realComponents (slashed fs.cwd) start ++ ns) :
    fs.toLocalFs.relpath p start = joined ns := by
  unfold LocalFs.relpath
  simp only [components_abspath, h, commonLength_append, Nat.sub_self, List.replicate_zero,
    List.nil_append,
    List.drop_left]
  cases ns with
  | nil => exact absurd rfl hne
  | cons n ns => rfl

/-- The names a path joins to a base stand below it. -/
theorem relpath_foldl (ht : t ≠ []) (hq : fs.resolve t = some q)
    (hd : fs.root.node q = some (.dir d))
    {x : Node Str Bytes} (hne : ns ≠ []) (hx : d.node ns = some x) :
    fs.toLocalFs.relpath (ns.foldl pathJoin t) t = joined ns := by
  have hfile := resolve_foldl ht hq hd hx
  have hreal := realComponents_of_resolve hfile
  rw [← realComponents_of_resolve hq] at hreal
  exact relpath_eq hne hreal

end Relative

section Files

/-- The files of one artifact: their paths below it, and what they hold. -/
def FileSystem.artifactFiles (fs : FileSystem) (p : Str) : List (List Str × Bytes) :=
  match fs.lookup p with
  | some (.dir d) => d.files
  | some (.file c) => [([basename p], c)]
  | none => []

def FileSystem.sourceFiles (fs : FileSystem) (artifacts : List Str) : List (List Str × Bytes) :=
  artifacts.flatMap fs.artifactFiles

theorem lookup_eq_some {x : Node Str Bytes} (h : fs.lookup p = some x) :
    ∃ q, fs.resolve p = some q ∧ fs.root.node q = some x := Option.bind_eq_some_iff.1 h

theorem read_of_resolve (h : fs.resolve p = some q) (hc : fs.root.node q = some (.file c)) :
    fs.toLocalFs.read p = c := by
  have hl : fs.lookup p = some (.file c) := Option.bind_eq_some_iff.2 ⟨q, h, hc⟩
  simp only [FileSystem.toLocalFs, hl]

/-- The last component of a file's path is its name. -/
theorem basename_isName (h : fs.lookup p = some (.file c)) : IsName (basename p) := by
  obtain ⟨q, hq, hc⟩ := lookup_eq_some h
  obtain ⟨-, hfold⟩ := fs.resolve_eq_some hq
  have hbase : basename p = (p.splitOn '/').getLastD [] := rfl
  obtain ⟨init, last, hsplit⟩ := List.eq_nil_or_concat' (p.splitOn '/') |>.resolve_left
    (List.splitOn_ne_nil '/' p)
  rw [hbase, hsplit, List.getLastD_concat]
  rw [hsplit, foldlM_concat] at hfold
  obtain ⟨cur, -, hstep⟩ := Option.bind_eq_some_iff.1 hfold
  have hfile : fs.root.isDir q = false := by
    unfold FileTree.isDir
    rw [hc]
  unfold FileSystem.resolveStep at hstep
  split_ifs at hstep with hdir h₁ h₂ h₃
  -- an empty component or a dot leads to a directory, not to a file
  · obtain rfl := Option.some.inj hstep
    simp [hfile] at hdir
  · obtain rfl := Option.some.inj hstep
    have hup := FileTree.isDir_of_prefix (by simpa using hdir) (List.dropLast_prefix cur)
    rw [hfile] at hup
    cases hup
  · obtain rfl := Option.some.inj hstep
    exact FileTree.ok_of_node fs.valid hc last (by simp)

theorem artifactFiles_names {f : List Str × Bytes} (h : f ∈ fs.artifactFiles p) :
    f.1 ≠ [] ∧ ∀ n ∈ f.1, IsName n := by
  unfold FileSystem.artifactFiles at h
  cases hl : fs.lookup p with
  | none =>
    rw [hl] at h
    cases h
  | some x =>
    rw [hl] at h
    cases x with
    | file c =>
      rw [List.mem_singleton.1 h]
      exact ⟨by simp, by simpa using basename_isName hl⟩
    | dir d =>
      obtain ⟨q, -, hd⟩ := lookup_eq_some hl
      exact FileTree.ok_of_mem_files (fs.valid.of_node hd) h

theorem iterFiles_dir (h : fs.lookup p = some (.dir d)) :
    ∃ base q, base ≠ [] ∧ fs.resolve base = some q ∧
    fs.root.node q = some (.dir d) ∧ fs.toLocalFs.iterFiles p =
      .ok (d.files.map fun f => (f.1.foldl pathJoin base, joined f.1)) := by
  obtain ⟨q, hq, hd⟩ := lookup_eq_some h
  have hbase := resolve_base hq
  have hne : (if rstrip '/' p = [] then ['/'] else rstrip '/' p) ≠ [] := by
    split_ifs with hs
    · simp
    · exact hs
  have hisdir : fs.toLocalFs.isdir p = true := by simp only [FileSystem.toLocalFs, h]
  generalize hb : (if rstrip '/' p = [] then ['/'] else rstrip '/' p) = base at hbase hne
  have hwalk : fs.toLocalFs.walk base = d.walk pathJoin base := by
    have hl : fs.lookup base = some (.dir d) := Option.bind_eq_some_iff.2 ⟨q, hbase, hd⟩
    simp only [FileSystem.toLocalFs, hl]
  refine ⟨base, q, hne, hbase, hd, ?_⟩
  have hpaths : (d.walk pathJoin base).flatMap (fun e => e.2.map fun name =>
      (pathJoin e.1 name, fs.toLocalFs.relpath (pathJoin e.1 name) base)) =
        ((d.walk pathJoin base).flatMap fun e => e.2.map (pathJoin e.1)).map
          fun fp => (fp, fs.toLocalFs.relpath fp base) := by
    rw [List.map_flatMap]
    simp only [List.map_map, Function.comp_def]
  unfold LocalFs.iterFiles
  rw [if_pos hisdir]
  simp only [hb, hwalk]
  refine congrArg Except.ok (hpaths.trans ?_)
  rw [FileTree.flatMap_walk, List.map_map]
  refine List.map_congr_left fun f hf => ?_
  have hvalid := fs.valid.of_node hd
  obtain ⟨hf₁, -⟩ := FileTree.ok_of_mem_files hvalid hf
  have hnode := (FileTree.mem_files hvalid).1 hf
  show (_, _) = (_, _)
  rw [relpath_foldl hne hbase hd hf₁ hnode]

/-- What `_iter_files` yields: every file of the artifact with the path it gets below the run. -/
theorem iterFiles_ok {files : List (Str × Str)} (h : fs.toLocalFs.iterFiles p = .ok files) :
    files.map (fun f => (f.2, fs.toLocalFs.read f.1)) =
      (fs.artifactFiles p).map fun f => (joined f.1, f.2) := by
  unfold FileSystem.artifactFiles
  cases hl : fs.lookup p with
  | none =>
    have hd : fs.toLocalFs.isdir p = false := by simp only [FileSystem.toLocalFs, hl]
    have he : fs.toLocalFs.pathExists p = false := congrArg Option.isSome hl
    unfold LocalFs.iterFiles at h
    simp [hd, he] at h
  | some x =>
    cases x with
    | dir d =>
      obtain ⟨base, q, hne, hbase, hd, hfiles⟩ := iterFiles_dir hl
      obtain rfl := Except.ok.inj (h.symm.trans hfiles)
      rw [List.map_map]
      refine List.map_congr_left fun f hf => ?_
      have hnode := (FileTree.mem_files (fs.valid.of_node hd)).1 hf
      have hnode' : fs.root.node (q ++ f.1) = some (.file f.2) :=
        (FileTree.node_append q f.1 _ hd).trans hnode
      show (_, _) = (_, _)
      rw [read_of_resolve (resolve_foldl hne hbase hd hnode) hnode']
    | file c =>
      obtain ⟨q, hq, hc⟩ := lookup_eq_some hl
      have hd : fs.toLocalFs.isdir p = false := by simp only [FileSystem.toLocalFs, hl]
      have he : fs.toLocalFs.pathExists p = true := congrArg Option.isSome hl
      unfold LocalFs.iterFiles at h
      rw [hd, he] at h
      obtain rfl := Except.ok.inj h
      show [(basename p, fs.toLocalFs.read p)] = [(joined [basename p], c)]
      rw [read_of_resolve hq hc, joined_singleton]

theorem planFile_eq {pre : Key} {file : Str × Str} {planned planned' : List (Str × Key)}
    (h : planFile pre planned file = .ok planned') :
    planned' = planned ++ [(file.1, pre ++ file.2)] := by
  rw [planFile] at h
  split at h
  · cases h
  · exact (Except.ok.inj h).symm

theorem planFiles_eq {pre : Key} {files : List (Str × Str)} {planned planned' : List (Str × Key)}
    (h : files.foldlM (planFile pre) planned = .ok planned') :
    planned' = planned ++ files.map fun f => (f.1, pre ++ f.2) := by
  induction files generalizing planned with
  | nil =>
    obtain rfl := Except.ok.inj h
    simp
  | cons f files ih =>
    obtain ⟨planned₁, hf, hfiles⟩ := foldlM_cons_ok.1 h
    rw [ih hfiles, planFile_eq hf]
    simp

/-- An accepted upload plans every source file, in order. -/
theorem planArtifacts_map {pre : Key} {artifacts : List Str} {planned : List (Str × Key)}
    (h : planArtifacts fs.toLocalFs pre artifacts = .ok planned) :
    planned.map (fun f => (f.2, fs.toLocalFs.read f.1)) =
      (fs.sourceFiles artifacts).map fun f => (pre ++ joined f.1, f.2) := by
  have hgen : ∀ planned₀ : List (Str × Key), artifacts.foldlM (fun planned path => do
      let files ← fs.toLocalFs.iterFiles path
      files.foldlM (planFile pre) planned) planned₀ = .ok planned →
      planned.map (fun f => (f.2, fs.toLocalFs.read f.1)) =
        planned₀.map (fun f => (f.2, fs.toLocalFs.read f.1)) ++
          (fs.sourceFiles artifacts).map fun f => (pre ++ joined f.1, f.2) := by
    clear h
    induction artifacts with
    | nil =>
      intro planned₀ h
      obtain rfl := Except.ok.inj h
      simp [FileSystem.sourceFiles]
    | cons p artifacts ih =>
      intro planned₀ h
      obtain ⟨planned₁, hp, hrest⟩ := foldlM_cons_ok.1 h
      obtain ⟨files, hfiles, hplan⟩ := except_bind_ok.1 hp
      have hkeys :=
        congrArg (List.map fun g : Str × Bytes => (pre ++ g.1, g.2)) (iterFiles_ok hfiles)
      simp only [List.map_map, Function.comp_def] at hkeys
      rw [ih _ hrest, planFiles_eq hplan]
      simp only [FileSystem.sourceFiles, List.flatMap_cons, List.map_append, List.map_map,
        Function.comp_def, List.append_assoc, hkeys]
  simpa using hgen [] h

end Files

end Accel.Model
