import AccelProf.Data.Fallible
import AccelProf.Model.Analyzers

/-! What a glob finds below a directory: files whose path follows the pattern. -/

namespace Accel.Model
open Data

/-- Path components that follow the components of a pattern. -/
inductive Follows : List Str → List Str → Prop
  | nil : Follows [] []
  | slash (pats : List Str) : Follows ([] :: pats) []
  | here {pats names : List Str} (h : Follows pats names) : Follows (doubleStar :: pats) names
  | deeper {pats names : List Str} (n : Str) (h : Follows (doubleStar :: pats) names) :
      Follows (doubleStar :: pats) (n :: names)
  | parent {pats names : List Str} (h : Follows pats names) :
      Follows (dotDot :: pats) (dotDot :: names)
  | name {pats names : List Str} {n pat : Str} (hn : fnmatch n pat = true)
      (h : Follows pats names) :
      Follows (pat :: pats) (n :: names)

variable {fs : FileSystem} {runDir glob p : Str} {x y : Reached} {names pats : List Str}
  {ok : Str → Prop}

theorem follows_doubleStar (h : Follows pats names) (q : List Str) :
    Follows (doubleStar :: pats) (q ++ names) := by
  induction q with
  | nil => exact .here h
  | cons n q ih => exact .deeper n ih

theorem foldl_enter (q : List Str) (x : Reached) :
    q.foldl Reached.enter x = ({ x.1 with parts := x.1.parts ++ q }, x.2 ++ q) := by
  induction q generalizing x with
  | nil => simp
  | cons n q ih =>
    rw [List.foldl_cons, ih]
    simp [Reached.enter, PurePath.child]

/-- A `**` reaches the directories at and below the one it starts from. -/
theorem mem_descend (hok : fs.root.Valid ok) : y ∈ fs.descend x ↔
    ∃ q, y = ({ x.1 with parts := x.1.parts ++ q }, x.2 ++ q) ∧
    fs.root.isDir (x.2 ++ q) = true := by
  unfold FileSystem.descend
  have hnone : ∀ q, fs.root.isDir x.2 = false → fs.root.isDir (x.2 ++ q) ≠ true := fun q h hq => by
    rw [FileTree.isDir_of_prefix hq (List.prefix_append _ _)] at h
    cases h
  cases hnode : fs.root.node x.2 with
  | none =>
    have hx : fs.root.isDir x.2 = false := by rw [FileTree.isDir, hnode]
    simp [hnone _ hx]
  | some node =>
    cases node with
    | file c =>
      have hx : fs.root.isDir x.2 = false := by rw [FileTree.isDir, hnode]
      simp [hnone _ hx]
    | dir d =>
      simp only [FileTree.mem_walk (hok.of_node hnode), foldl_enter, FileTree.isDir_append hnode]

theorem mem_entries {pat : Str} {dirOnly : Bool} : y ∈ fs.entries pat dirOnly x ↔
    fs.root.isDir x.2 = true ∧ ∃ n, y = x.enter n ∧ (fs.root.node (x.2 ++ [n])).isSome ∧
    fnmatch n pat = true ∧
      (dirOnly = true → fs.root.isDir (x.2 ++ [n]) = true) := by
  unfold FileSystem.entries
  cases hnode : fs.root.node x.2 with
  | none =>
    have hx : fs.root.isDir x.2 = false := by rw [FileTree.isDir, hnode]
    simp [hx]
  | some node =>
    cases node with
    | file c =>
      have hx : fs.root.isDir x.2 = false := by rw [FileTree.isDir, hnode]
      simp [hx]
    | dir d =>
      have hx : fs.root.isDir x.2 = true := FileTree.isDir_iff.2 ⟨d, hnode⟩
      have hname : ∀ n, n ∈ d.names ↔ (fs.root.node (x.2 ++ [n])).isSome := by
        intro n
        rw [FileTree.node_append x.2 [n] _ hnode, FileTree.node, ← not_iff_not,
          ← FileTree.find_eq_none_iff]
        cases d.find n with
        | none => simp
        | some z => cases z <;> simp [FileTree.node]
      simp only [List.mem_map, List.mem_filter, hname, hx, true_and, Bool.and_eq_true,
        Bool.or_eq_true,
        Bool.not_eq_true']
      constructor
      · rintro ⟨n, ⟨hn, hmatch, hdir⟩, rfl⟩
        exact ⟨n, rfl, hn, hmatch, fun hd => hdir.resolve_left (by simp [hd])⟩
      · rintro ⟨n, rfl, hn, hmatch, hdir⟩
        exact ⟨n, ⟨hn, hmatch, by cases dirOnly <;> simp_all⟩, rfl⟩

/-- Whatever the selectors reach continues the path they start from, along the pattern. -/
theorem mem_select (hok : fs.root.Valid ok) (h : y ∈ fs.select pats x) :
    ∃ names, y.1 = { x.1 with parts := x.1.parts ++ names } ∧ Follows pats names ∧
      ∀ n ∈ names, ok n ∨ n = dotDot := by
  induction pats generalizing x with
  | nil =>
    obtain rfl := List.mem_singleton.1 h
    exact ⟨[], by simp, .nil, by simp⟩
  | cons pat rest ih =>
    rw [FileSystem.select] at h
    split_ifs at h with hnil hstar hdots
    · obtain rfl := List.mem_singleton.1 h
      subst hnil
      exact ⟨[], by simp, .slash rest, by simp⟩
    · obtain ⟨z, hz, hy⟩ := List.mem_flatMap.1 h
      obtain ⟨q, rfl, hdir⟩ := (mem_descend hok).1 hz
      obtain ⟨sub, hsub⟩ := FileTree.isDir_iff.1 hdir
      obtain ⟨names, hyn, hf, hnames⟩ := ih hy
      refine ⟨q ++ names, by rw [hyn]; simp, hstar ▸ follows_doubleStar hf q, fun n hn => ?_⟩
      rcases List.mem_append.1 hn with hn | hn
      · exact .inl (FileTree.ok_of_node hok hsub n (List.mem_append_right _ hn))
      · exact hnames n hn
    · obtain ⟨names, hyn, hf, hnames⟩ := ih h
      refine ⟨dotDot :: names, ?_, hdots ▸ .parent hf, List.forall_mem_cons.2 ⟨.inr rfl, hnames⟩⟩
      rw [hyn]
      simp [PurePath.child]
    · obtain ⟨z, hz, hy⟩ := List.mem_flatMap.1 h
      obtain ⟨-, n, rfl, hn, hmatch, -⟩ := mem_entries.1 hz
      obtain ⟨node, hnode⟩ := Option.isSome_iff_exists.1 hn
      have hn : ok n := FileTree.ok_of_node hok hnode n (by simp)
      obtain ⟨names, hyn, hf, hnames⟩ := ih hy
      refine ⟨n :: names, ?_, .name hmatch hf, List.forall_mem_cons.2 ⟨.inl hn, hnames⟩⟩
      rw [hyn]
      simp [Reached.enter, PurePath.child]

/-- `p` is the path of an existing file that `glob` finds below `runDir`. -/
structure Matches (fs : FileSystem) (runDir glob p : Str) : Prop where
  isFile : fs.isFile p = true
  follows : ∃ names, Follows (doubleStar :: patternParts glob) names ∧
    p = PurePath.str { PurePath.parse runDir with parts := (PurePath.parse runDir).parts ++ names }

/-- What a search returns, it has found; each name in it is one of the file system's. -/
theorem mem_findMatches {found : List Str} (hok : fs.root.Valid ok)
    (h : findMatches fs runDir glob = .ok found) (hp : p ∈ found) : Matches fs runDir glob p ∧
      ∃ names, (∀ n ∈ names, ok n ∨ n = dotDot) ∧
        p = PurePath.str { PurePath.parse runDir with
          parts := (PurePath.parse runDir).parts ++ names } := by
  obtain ⟨reached, hr, rfl⟩ := except_map_ok.1 h
  rw [List.mem_insertionSort, List.mem_dedup, List.mem_filter] at hp
  obtain ⟨hp, hfile⟩ := hp
  obtain ⟨y, hy, rfl⟩ := List.mem_map.1 hp
  have hsel : ∃ q, y ∈ fs.select (doubleStar :: patternParts glob) (PurePath.parse runDir, q) := by
    unfold FileSystem.rglob at hr
    simp only at hr
    split_ifs at hr with h₁ h₂
    cases hres : fs.resolve (PurePath.parse runDir).str with
    | none =>
      rw [hres] at hr
      obtain rfl := Except.ok.inj hr
      cases hy
    | some q =>
      rw [hres] at hr
      obtain rfl := Except.ok.inj hr
      split_ifs at hy with hdir
      · exact ⟨q, hy⟩
      · cases hy
  obtain ⟨q, hy⟩ := hsel
  obtain ⟨names, hyn, hf, hnames⟩ := mem_select hok hy
  exact ⟨⟨hfile, names, hf, congrArg PurePath.str hyn⟩, names, hnames, congrArg PurePath.str hyn⟩

end Accel.Model
