import AccelProf.Analysis.Matches
import AccelProf.Layout.Artifacts

/-! Where a pattern leads on the file system, and the patterns whose matches stay below the
directory they are searched from. -/

namespace Accel.Model
open Data

variable {fs : FileSystem} {root : Dir} {runDir pattern p : Str} {x y : Reached}
  {pats before rest d e q start : List Str}

/-- From the directory `d` the components of a pattern lead to `e`: a name to an entry that matches,
`..` to the parent, `**` to any directory below. -/
inductive Leads (root : Dir) : List Str → List Str → List Str → Prop
  | done (d : List Str) : Leads root [] d d
  | slash {pats d e : List Str} (h : Leads root pats d e) : Leads root ([] :: pats) d e
  | up {pats d e : List Str} (h : Leads root pats d.dropLast e) : Leads root (dotDot :: pats) d e
  | deeper {pats d e : List Str} (sub : List Str) (hsub : root.isDir (d ++ sub) = true)
      (h : Leads root pats (d ++ sub) e) : Leads root (doubleStar :: pats) d e
  | entry {pats d e : List Str} {pat : Str} (n : Str)
      (hpat : pat ≠ [] ∧ pat ≠ dotDot ∧ pat ≠ doubleStar)
      (hn : (root.node (d ++ [n])).isSome) (hmatch : fnmatch n pat = true)
      (hdir : pats ≠ [] → root.isDir (d ++ [n]) = true) (h : Leads root pats (d ++ [n]) e) :
      Leads root (pat :: pats) d e

section Leads

theorem leads_append (h : Leads root before d q) (hrest : rest ≠ [] → root.isDir q = true)
    (h' : Leads root rest q e) :
    Leads root (before ++ rest) d e := by
  induction h with
  | done d => exact h'
  | slash h ih => exact .slash (ih hrest h')
  | up h ih => exact .up (ih hrest h')
  | deeper sub hsub h ih => exact .deeper sub hsub (ih hrest h')
  | @entry pats d q pat n hpat hn hmatch hdir h ih =>
    refine .entry n hpat hn hmatch (fun hne => ?_) (ih hrest h')
    by_cases hp : pats = []
    · subst hp
      cases h
      exact hrest (by simpa using hne)
    · exact hdir hp

/-- Where a pattern leads out of `q`, it does so by a `..` taken in `q` itself. -/
theorem leads_out (h : Leads root pats d e) (hd : q <+: d) (he : ¬ q <+: e) :
    ∃ before rest, pats = before ++ dotDot :: rest ∧ Leads root before d q ∧
    Leads root rest q.dropLast e := by
  induction h with
  | done d => exact absurd hd he
  | slash h ih =>
    obtain ⟨before, rest, rfl, h₁, h₂⟩ := ih hd he
    exact ⟨[] :: before, rest, rfl, .slash h₁, h₂⟩
  | @up pats d e h ih =>
    by_cases hq : d = q
    · subst hq
      exact ⟨[], pats, rfl, .done d, h⟩
    · have hup : q <+: d.dropLast := by
        obtain ⟨t, rfl⟩ := hd
        have ht : t ≠ [] := fun ht => hq (by rw [ht, List.append_nil])
        rw [List.dropLast_append_of_ne_nil ht]
        exact List.prefix_append _ _
      obtain ⟨before, rest, rfl, h₁, h₂⟩ := ih hup he
      exact ⟨dotDot :: before, rest, rfl, .up h₁, h₂⟩
  | deeper sub hsub h ih =>
    obtain ⟨before, rest, rfl, h₁, h₂⟩ := ih (hd.trans (List.prefix_append _ _)) he
    exact ⟨doubleStar :: before, rest, rfl, .deeper sub hsub h₁, h₂⟩
  | @entry pats d e pat n hpat hn hmatch hdir h ih =>
    obtain ⟨before, rest, rfl, h₁, h₂⟩ := ih (hd.trans (List.prefix_append _ _)) he
    exact ⟨pat :: before, rest, rfl, .entry n hpat hn hmatch (fun _ => hdir (by simp)) h₁, h₂⟩

end Leads

section Select

/-- A glob has the path it reports at the place it has reached. -/
def Placed (fs : FileSystem) (start : List Str) (x : Reached) : Prop :=
  x.1.parts.foldlM (FileSystem.resolveStep fs.root) start = some x.2

theorem Placed.child {n : Str} {q : List Str} (h : Placed fs start x)
    (hn : FileSystem.resolveStep fs.root x.2 n = some q) : Placed fs start (x.1.child n, q) := by
  unfold Placed PurePath.child
  rw [foldlM_concat, h, Option.bind_some]
  exact hn

theorem Placed.append {ns : List Str} (h : Placed fs start x)
    (hdir : fs.root.isDir (x.2 ++ ns) = true) :
    Placed fs start ({ x.1 with parts := x.1.parts ++ ns }, x.2 ++ ns) := by
  induction ns generalizing x with
  | nil => simpa using h
  | cons n ns ih =>
    have happ : x.2 ++ n :: ns = x.2 ++ [n] ++ ns := by simp
    rw [happ] at hdir
    have hn : fs.root.isDir (x.2 ++ [n]) = true :=
      FileTree.isDir_of_prefix hdir (List.prefix_append _ _)
    have hx : fs.root.isDir x.2 = true := FileTree.isDir_of_prefix hn (List.prefix_append _ _)
    obtain ⟨sub, hsub⟩ := FileTree.isDir_iff.1 hn
    have hname : IsName n := FileTree.ok_of_node fs.valid hsub n (by simp)
    have hstep : FileSystem.resolveStep fs.root x.2 n = some (x.2 ++ [n]) := by
      rw [resolveStep_name hname, if_pos ⟨hx, by rw [hsub]; rfl⟩]
    have := ih (x := (x.1.child n, x.2 ++ [n])) (h.child hstep) hdir
    simpa [PurePath.child] using this

/-- The selectors reach exactly the places that the pattern leads to. -/
theorem mem_select_iff (hdir : pats ≠ [] → fs.root.isDir x.2 = true)
    (hend : ∀ before rest, pats = before ++ [] :: rest → rest = []) :
    (∃ y ∈ fs.select pats x, y.2 = e) ↔ Leads fs.root pats x.2 e := by
  induction pats generalizing x with
  | nil =>
    constructor
    · rintro ⟨y, hy, rfl⟩
      obtain rfl := List.mem_singleton.1 hy
      exact .done _
    · intro h
      cases h
      exact ⟨x, List.mem_singleton.2 rfl, rfl⟩
  | cons pat rest ih =>
    have hrest : ∀ before rest', rest = before ++ [] :: rest' → rest' = [] := fun before rest' h =>
      hend (pat :: before) rest' (by rw [h]; rfl)
    rw [FileSystem.select]
    split_ifs with hnil hstar hdots
    · subst hnil
      -- an empty part is only at the end, where it asks for a directory
      obtain rfl := hend [] rest rfl
      constructor
      · rintro ⟨y, hy, rfl⟩
        obtain rfl := List.mem_singleton.1 hy
        exact .slash (.done _)
      · intro h
        cases h with
        | slash h =>
          cases h
          exact ⟨x, List.mem_singleton.2 rfl, rfl⟩
        | entry n hpat => exact absurd rfl hpat.1
    · subst hstar
      constructor
      · rintro ⟨y, hy, rfl⟩
        obtain ⟨z, hz, hy⟩ := List.mem_flatMap.1 hy
        obtain ⟨sub, rfl, hsub⟩ := (mem_descend fs.valid).1 hz
        exact .deeper sub hsub ((ih (fun _ => hsub) hrest).1 ⟨y, hy, rfl⟩)
      · intro h
        cases h with
        | deeper sub hsub h =>
          obtain ⟨y, hy, rfl⟩ :=
            (ih (x := ({ x.1 with parts := x.1.parts ++ sub }, x.2 ++ sub)) (fun _ => hsub) hrest).2
            h
          exact ⟨y, List.mem_flatMap.2 ⟨_, (mem_descend fs.valid).2 ⟨sub, rfl, hsub⟩, hy⟩, rfl⟩
        | entry n hpat => exact absurd rfl hpat.2.2
    · subst hdots
      -- `..` of a directory is one, so the rest is searched below it
      have hup : fs.root.isDir x.2.dropLast = true :=
        FileTree.isDir_of_prefix (hdir (by simp)) (List.dropLast_prefix _)
      have hih := ih (x := (x.1.child dotDot, x.2.dropLast)) (fun _ => hup) hrest
      constructor
      · exact fun h => .up (hih.1 h)
      · intro h
        cases h with
        | up h => exact hih.2 h
        | entry n hpat => exact absurd rfl hpat.2.1
    · constructor
      · rintro ⟨y, hy, rfl⟩
        obtain ⟨z, hz, hy⟩ := List.mem_flatMap.1 hy
        obtain ⟨-, n, rfl, hn, hmatch, hsub⟩ := mem_entries.1 hz
        have hne : rest ≠ [] → fs.root.isDir (x.2 ++ [n]) = true := fun h => hsub (by simpa using h)
        exact .entry n ⟨hnil, hdots, hstar⟩ hn hmatch hne
          ((ih (x := x.enter n) hne hrest).1 ⟨y, hy, rfl⟩)
      · intro h
        cases h with
        | slash => exact absurd rfl hnil
        | up => exact absurd rfl hdots
        | deeper => exact absurd rfl hstar
        | entry n hpat hn hmatch hsub h =>
          obtain ⟨y, hy, rfl⟩ := (ih (x := x.enter n) hsub hrest).2 h
          have hz : x.enter n ∈ fs.entries pat (!rest.isEmpty) x :=
            mem_entries.2 ⟨hdir (by simp), n, rfl, hn, hmatch, fun h => hsub (by simpa using h)⟩
          exact ⟨y, List.mem_flatMap.2 ⟨_, hz, hy⟩, rfl⟩

/-- Along a glob, the path that is reported leads to the place that was reached. -/
theorem placed_select (hx : Placed fs start x) (hdir : pats ≠ [] → fs.root.isDir x.2 = true)
    (hy : y ∈ fs.select pats x) :
    Placed fs start y ∧ y.1.root = x.1.root := by
  induction pats generalizing x with
  | nil =>
    obtain rfl := List.mem_singleton.1 hy
    exact ⟨hx, rfl⟩
  | cons pat rest ih =>
    have hdir := hdir (by simp)
    rw [FileSystem.select] at hy
    split_ifs at hy with hnil hstar hdots
    · obtain rfl := List.mem_singleton.1 hy
      exact ⟨hx, rfl⟩
    · obtain ⟨z, hz, hy⟩ := List.mem_flatMap.1 hy
      obtain ⟨sub, rfl, hsub⟩ := (mem_descend fs.valid).1 hz
      have hplaced := hx.append hsub
      exact ih (x := ({ x.1 with parts := x.1.parts ++ sub }, x.2 ++ sub)) hplaced
        (fun _ => hsub) hy
    · have hup : fs.root.isDir x.2.dropLast = true :=
        FileTree.isDir_of_prefix hdir (List.dropLast_prefix _)
      have hstep : FileSystem.resolveStep fs.root x.2 dotDot = some x.2.dropLast := by
        unfold FileSystem.resolveStep
        simp [hdir, dotDot, dot]
      exact ih (x := (x.1.child dotDot, x.2.dropLast)) (hx.child hstep) (fun _ => hup) hy
    · obtain ⟨z, hz, hy⟩ := List.mem_flatMap.1 hy
      obtain ⟨-, n, rfl, hn, -, hsub⟩ := mem_entries.1 hz
      obtain ⟨node, hnode⟩ := Option.isSome_iff_exists.1 hn
      have hname : IsName n := FileTree.ok_of_node fs.valid hnode n (by simp)
      have hstep : FileSystem.resolveStep fs.root x.2 n = some (x.2 ++ [n]) := by
        rw [resolveStep_name hname, if_pos ⟨hdir, hn⟩]
      exact ih (x := x.enter n) (hx.child hstep) (fun h => hsub (by simpa using h)) hy

end Select

section Paths

/-- A component a parsed path can have. -/
def IsPart (n : Str) : Prop := n ≠ [] ∧ n ≠ dot ∧ '/' ∉ n

def PurePath.startOf (fs : FileSystem) (p : PurePath) : List Str :=
  if p.root = [] then fs.cwd else []

theorem resolve_slash (s : Str) :
    fs.resolve ('/' :: s) = (s.splitOn '/').foldlM (FileSystem.resolveStep fs.root) [] := by
  have hsplit : ('/' :: s).splitOn '/' = [] :: s.splitOn '/' := by
    rw [← List.nil_append ('/' :: s), List.splitOn_append_cons_self]
    rfl
  have hstep : FileSystem.resolveStep fs.root [] [] = some [] := rfl
  unfold FileSystem.resolve
  rw [if_neg (by simp), hsplit, List.foldlM_cons]
  rfl

theorem foldlM_splitOn_joined (h : ∀ n ∈ pats, IsPart n) :
    ((joined pats).splitOn '/').foldlM (FileSystem.resolveStep fs.root) [] =
      pats.foldlM (FileSystem.resolveStep fs.root) [] := by
  by_cases hne : pats = []
  · subst hne
    rfl
  · rw [splitOn_joined hne fun n hn => (h n hn).2.2]

/-- The components of a parsed path are looked up one after the other. -/
theorem resolve_str {p : PurePath} (hroot : p.root = [] ∨ p.root = ['/'] ∨ p.root = ['/', '/'])
    (h : ∀ n ∈ p.parts, IsPart n) :
    fs.resolve p.str = p.parts.foldlM (FileSystem.resolveStep fs.root) (p.startOf fs) := by
  obtain ⟨root, parts⟩ := p
  have hslash : FileSystem.resolveStep fs.root [] [] = some [] := rfl
  rcases hroot with rfl | rfl | rfl
  · cases parts with
    | nil =>
      have hdot : FileSystem.resolveStep fs.root fs.cwd dot = some fs.cwd := by
        unfold FileSystem.resolveStep
        simp [fs.cwd_isDir]
      show (FileSystem.resolveStep fs.root fs.cwd dot).bind some = some fs.cwd
      rw [hdot]
      rfl
    | cons a parts =>
      obtain ⟨ha, -⟩ := List.forall_mem_cons.1 h
      have hjoin : PurePath.str ⟨[], a :: parts⟩ = joined (a :: parts) := rfl
      have hhead : (joined (a :: parts)).head? = a.head? := by
        cases parts with
        | nil => rw [joined_singleton]
        | cons b parts => rw [joined_cons_cons, List.head?_append_of_ne_nil _ ha.1]
      have hrel : a.head? ≠ some '/' := fun hh => ha.2.2 (List.mem_of_head? hh)
      have hne : joined (a :: parts) ≠ [] := fun he => by
        rw [he] at hhead
        exact ha.1 (List.head?_eq_none_iff.1 hhead.symm)
      rw [hjoin]
      unfold FileSystem.resolve
      rw [if_neg hne, hhead, if_neg hrel, splitOn_joined (by simp) fun n hn => (h n hn).2.2]
      rfl
  · show fs.resolve ('/' :: joined parts) = _
    rw [resolve_slash, foldlM_splitOn_joined h]
    rfl
  -- two slashes give an empty component, which stays at the root
  · have hsplit : ('/' :: joined parts).splitOn '/' = [] :: (joined parts).splitOn '/' := by
      rw [← List.nil_append ('/' :: joined parts), List.splitOn_append_cons_self]
      rfl
    show fs.resolve ('/' :: '/' :: joined parts) = _
    rw [resolve_slash, hsplit, List.foldlM_cons]
    show (FileSystem.resolveStep fs.root [] []).bind _ = _
    rw [hslash, Option.bind_some, foldlM_splitOn_joined h]
    rfl

theorem foldlM_filter {comps cur : List Str}
    (h : comps.foldlM (FileSystem.resolveStep root) cur = some q) :
    (comps.filter fun c => c ≠ [] ∧ c ≠ dot).foldlM (FileSystem.resolveStep root) cur = some q := by
  induction comps generalizing cur with
  | nil => exact h
  | cons comp comps ih =>
    rw [List.foldlM_cons] at h
    obtain ⟨cur', hstep, hrest⟩ := Option.bind_eq_some_iff.1 h
    by_cases hc : comp ≠ [] ∧ comp ≠ dot
    · rw [List.filter_cons_of_pos (by simpa using hc), List.foldlM_cons]
      exact Option.bind_eq_some_iff.2 ⟨cur', hstep, ih hrest⟩
    · -- an empty component or a dot stays where it is
      have hskip : comp = [] ∨ comp = dot := by
        rw [not_and_or, not_not, not_not] at hc
        exact hc
      have hcur : cur' = cur := by
        unfold FileSystem.resolveStep at hstep
        split_ifs at hstep
        exact (Option.some.inj hstep).symm
      rw [List.filter_cons_of_neg (by simpa using hc)]
      exact ih (hcur ▸ hrest)

theorem parse_parts (p : Str) : ∀ n ∈ (PurePath.parse p).parts, IsPart n := by
  intro n hn
  obtain ⟨hn, hp⟩ := List.mem_filter.1 hn
  obtain ⟨h₁, h₂⟩ := of_decide_eq_true hp
  exact ⟨h₁, h₂, slash_not_mem_splitOn hn⟩

theorem parse_root (p : Str) : ((PurePath.parse p).root = [] ∨ (PurePath.parse p).root = ['/'] ∨
    (PurePath.parse p).root = ['/', '/']) ∧
    ((PurePath.parse p).root = [] ↔ p.head? ≠ some '/') := by
  have hhead : p.take 1 = ['/'] ↔ p.head? = some '/' := by
    cases p <;> simp
  unfold PurePath.parse
  simp only [ne_eq]
  split_ifs with h₁ h₂
  · exact ⟨.inr (.inr rfl), iff_of_false (by simp) (not_not.2 (hhead.1 h₁))⟩
  · exact ⟨.inr (.inl rfl), iff_of_false (by simp) (not_not.2 (hhead.1 h₁))⟩
  · exact ⟨.inl rfl, iff_of_true rfl (hhead.not.1 h₁)⟩

theorem placed_parse (h : fs.resolve runDir = some q) :
    Placed fs ((PurePath.parse runDir).startOf fs) (PurePath.parse runDir, q) := by
  obtain ⟨-, hfold⟩ := fs.resolve_eq_some h
  have hstart :
      (PurePath.parse runDir).startOf fs = if runDir.head? = some '/' then [] else fs.cwd := by
    unfold PurePath.startOf
    by_cases hh : runDir.head? = some '/'
    · rw [if_pos hh, if_neg fun hr => ((parse_root runDir).2.1 hr) hh]
    · rw [if_neg hh, if_pos ((parse_root runDir).2.2 hh)]
  rw [hstart]
  exact foldlM_filter hfold

theorem resolve_of_select (h : fs.resolve runDir = some q) (hq : fs.root.isDir q = true)
    (hy : y ∈ fs.select pats (PurePath.parse runDir, q)) : fs.resolve y.1.str = some y.2 := by
  obtain ⟨hplaced, hroot⟩ := placed_select (placed_parse h) (fun _ => hq) hy
  obtain ⟨names, hyn, -, hnames⟩ := mem_select fs.valid hy
  have hparts : ∀ n ∈ y.1.parts, IsPart n := by
    intro n hn
    rw [hyn] at hn
    rcases List.mem_append.1 hn with hn | hn
    · exact parse_parts runDir n hn
    · rcases hnames n hn with hn | rfl
      · exact ⟨hn.1, hn.2.1, hn.2.2.2⟩
      · exact ⟨by decide, by decide, by decide⟩
  have hstart : y.1.startOf fs = (PurePath.parse runDir).startOf fs := by
    unfold PurePath.startOf
    rw [hroot]
  rw [resolve_str (hroot ▸ (parse_root runDir).1) hparts, hstart]
  exact hplaced

end Paths

/-- The components of a glob that `pathlib` refuses. -/
def Refuses (pattern : Str) : Prop :=
  pattern.head? = some '/' ∨ ∃ c ∈ patternParts pattern, c ≠ doubleStar ∧ doubleStar <:+: c

/-- From a directory at or below `q` a part of the pattern leads back to `q`, and what follows it
after a `..` leads from the parent of `q` to a file outside of `q`. -/
def ClimbsOut (root : Dir) (q : List Str) (pattern : Str) : Prop :=
  ∃ before rest, patternParts pattern = before ++ dotDot :: rest ∧
    (∃ sub, root.isDir (q ++ sub) = true ∧ Leads root before (q ++ sub) q) ∧
    ∃ e, (root.fileAt e).isSome ∧ ¬ q <+: e ∧ Leads root rest q.dropLast e

/-- An exception, or a sorted list of paths of regular files below `q`. -/
def StaysBelow (fs : FileSystem) (q : List Str) : Except PyExc (List Str) → Prop
  | .error _ => True
  | .ok found => found.Pairwise (· ≤ ·) ∧ ∀ p ∈ found, fs.isFile p = true ∧
      q <+: realComponents (slashed fs.cwd) p ∧ realComponents (slashed fs.cwd) p ≠ q

section Below

theorem patternParts_end (pattern : Str) :
    ∀ before rest, patternParts pattern = before ++ [] :: rest → rest = [] := by
  intro before rest h
  have hparts : ([] : Str) ∉ (PurePath.parse pattern).parts :=
    fun hm => (parse_parts pattern [] hm).1 rfl
  unfold patternParts at h
  rcases List.append_eq_append_iff.1 h with ⟨a, rfl, ha⟩ | ⟨a, ha, hb⟩
  · split_ifs at ha with hl
    · cases a with
      | nil => exact (List.cons.inj ha).2.symm
      | cons b a => simp at ha
    · simp at ha
  · cases a with
    | nil =>
      split_ifs at hb with hl
      · exact (List.cons.inj hb).2
      · cases hb
    | cons b a =>
      rw [List.cons_append] at hb
      obtain ⟨rfl, -⟩ := List.cons.inj hb
      exact absurd (ha ▸ by simp) hparts

theorem isFile_of_resolve (h : fs.resolve p = some e) : fs.isFile p = true ↔
    (fs.root.fileAt e).isSome := by
  unfold FileSystem.isFile FileSystem.lookup FileTree.fileAt
  rw [h, Option.bind_some]
  cases fs.root.node e with
  | none => simp
  | some x => cases x <;> simp

theorem refuses_iff (pattern : Str) : Refuses pattern ↔ pattern.head? = some '/' ∨
    ((patternParts pattern).any fun c => c ≠ doubleStar ∧ doubleStar <:+: c) = true := by
  simp [Refuses]

theorem findMatches_refused (h : Refuses pattern) :
    ∃ err, findMatches fs runDir pattern = .error err := by
  unfold findMatches FileSystem.rglob
  rcases (refuses_iff pattern).1 h with h | h
  · exact ⟨_, by rw [if_pos h]; rfl⟩
  · by_cases hh : pattern.head? = some '/'
    · exact ⟨_, by rw [if_pos hh]; rfl⟩
    · exact ⟨_, by rw [if_neg hh, if_pos h]; rfl⟩

/-- A search that is not refused finds the files that the pattern leads to from a directory
below. -/
theorem findMatches_ok (hres : fs.resolve runDir = some q) (hq : fs.root.isDir q = true)
    (h : ¬ Refuses pattern) :
    ∃ found, findMatches fs runDir pattern = .ok found ∧ found.Pairwise (· ≤ ·) ∧
      (∀ p ∈ found, fs.isFile p = true) ∧
      ∀ e, (∃ p ∈ found, realComponents (slashed fs.cwd) p = e) ↔
        (fs.root.fileAt e).isSome ∧ Leads fs.root (doubleStar :: patternParts pattern) q e := by
  obtain ⟨hhead, hany⟩ := not_or.1 ((refuses_iff pattern).not.1 h)
  have hparse : fs.resolve (PurePath.parse runDir).str = some q :=
    (resolve_str (parse_root runDir).1 (parse_parts runDir)).trans (placed_parse hres)
  let reached := fs.select (doubleStar :: patternParts pattern) (PurePath.parse runDir, q)
  have hglob : fs.rglob (PurePath.parse runDir) pattern = .ok reached := by
    unfold FileSystem.rglob
    rw [if_neg hhead, if_neg hany, hparse]
    exact congrArg Except.ok (if_pos hq)
  have hresolve : ∀ y ∈ reached, fs.resolve y.1.str = some y.2 :=
    fun y hy => resolve_of_select hres hq hy
  have hend : ∀ before rest, doubleStar :: patternParts pattern = before ++ [] :: rest →
      rest = [] := by
    intro before rest hs
    cases before with
    | nil => cases hs
    | cons b before => exact patternParts_end pattern before rest (List.cons.inj hs).2
  -- the search starts at a directory and looks for a well-formed pattern
  have hselect :=
    fun e => mem_select_iff (x := (PurePath.parse runDir, q)) (e := e) (fun _ => hq) hend
  refine ⟨((reached.map fun x => x.1.str).filter fs.isFile).dedup.insertionSort (· ≤ ·), ?_, ?_,
    fun p hp => ?_,
    fun e => ?_⟩
  · unfold findMatches
    rw [hglob]
    rfl
  · exact List.pairwise_insertionSort _ _
  · rw [List.mem_insertionSort, List.mem_dedup, List.mem_filter] at hp
    exact hp.2
  · rw [← hselect]
    constructor
    · rintro ⟨p, hp, rfl⟩
      rw [List.mem_insertionSort, List.mem_dedup, List.mem_filter] at hp
      obtain ⟨y, hy, rfl⟩ := List.mem_map.1 hp.1
      have hy' := hresolve y hy
      rw [realComponents_of_resolve hy']
      exact ⟨(isFile_of_resolve hy').1 hp.2, y, hy, rfl⟩
    · rintro ⟨hfile, y, hy, rfl⟩
      have hy' := hresolve y hy
      refine ⟨y.1.str, ?_, realComponents_of_resolve hy'⟩
      rw [List.mem_insertionSort, List.mem_dedup, List.mem_filter]
      exact ⟨List.mem_map_of_mem hy, (isFile_of_resolve hy').2 hfile⟩

end Below

/-- From a directory at or below `q` a part of the pattern leads to `m`, and what follows it after a
`..` leads from the parent of `m` to a file outside of `m`. -/
def ClimbsPast (root : Dir) (m q : List Str) (pattern : Str) : Prop :=
  ∃ before rest, patternParts pattern = before ++ dotDot :: rest ∧
    (∃ sub, root.isDir (q ++ sub) = true ∧ Leads root before (q ++ sub) m) ∧
    ∃ e, (root.fileAt e).isSome ∧ ¬ m <+: e ∧ Leads root rest m.dropLast e

/-- A search from `q` finds no file outside of a directory `m` above exactly when its pattern takes
no `..` in `m` itself on the way to one. -/
theorem leads_below_iff {m : List Str} (hm : m <+: q) (hq : fs.root.isDir q = true) :
    (∀ e, (fs.root.fileAt e).isSome → Leads fs.root (doubleStar :: patternParts pattern) q e →
      m <+: e) ↔ ¬ ClimbsPast fs.root m q pattern := by
  constructor
  · rintro hbelow ⟨before, rest, hparts, ⟨sub, hsub, hback⟩, e, hfile, hout, hrest⟩
    -- the climbing route is one of those the search follows
    have hroute : Leads fs.root (patternParts pattern) (q ++ sub) e := by
      rw [hparts]
      exact leads_append hback (fun _ => FileTree.isDir_of_prefix hq hm) (.up hrest)
    exact hout (hbelow e hfile (.deeper sub hsub hroute))
  · intro hclimb e hfile hlead
    by_contra hout
    cases hlead with
    | deeper sub hsub hroute =>
      obtain ⟨before, rest, hparts, hback, hrest⟩ :=
        leads_out hroute (hm.trans (List.prefix_append _ _)) hout
      exact hclimb ⟨before, rest, hparts, ⟨sub, hsub, hback⟩, _, hfile, hout, hrest⟩
    | entry n hpat => exact hpat.2.2 rfl

/-- The matches of a pattern stay below the run's directory exactly when `pathlib` refuses the
pattern or no `..` in it can be taken in the run's directory itself on the way to a file outside. -/
theorem matches_stay_below_iff (hres : fs.resolve runDir = some q) (hq : fs.root.isDir q = true) :
    StaysBelow fs q (findMatches fs runDir pattern) ↔
    Refuses pattern ∨ ¬ ClimbsOut fs.root q pattern := by
  by_cases href : Refuses pattern
  · obtain ⟨err, he⟩ : ∃ err, findMatches fs runDir pattern = .error err := findMatches_refused href
    rw [he]
    exact iff_of_true trivial (.inl href)
  obtain ⟨found, hfound, hsorted, hfiles, hreach⟩ := findMatches_ok hres hq href
  have hclimb : _ ↔ ¬ ClimbsOut fs.root q pattern :=
    leads_below_iff (m := q) List.prefix_rfl hq
  rw [hfound, or_iff_right href, ← hclimb]
  constructor
  · rintro ⟨-, hbelow⟩ e hfile hlead
    obtain ⟨p, hp, rfl⟩ := (hreach e).2 ⟨hfile, hlead⟩
    exact (hbelow p hp).2.1
  · intro hbelow
    refine ⟨hsorted, fun p hp => ?_⟩
    obtain ⟨hfile, hlead⟩ := (hreach (realComponents (slashed fs.cwd) p)).1 ⟨p, hp, rfl⟩
    refine ⟨hfiles p hp, hbelow _ hfile hlead, fun he => ?_⟩
    rw [he, FileTree.fileAt_of_isDir hq] at hfile
    cases hfile

section Sample

/-- A mount with the directories of two runs, and a file in each. -/
def twoRuns : FileSystem where
  root := .dir ['m']
    (.dir ['1'] (.file ['x'] [1] .empty) (.dir ['2'] (.file ['y'] [2] .empty) .empty)) .empty
  cwd := []
  valid := by decide
  cwd_isDir := rfl
  sha256 := fun _ => ([], [])

theorem matches_stay_below_iff_sample :
    StaysBelow twoRuns [['m'], ['1']] (findMatches twoRuns "/m/1".toList "*".toList) := by
  refine (matches_stay_below_iff rfl rfl).2 (.inr ?_)
  rintro ⟨before, rest, hparts, -⟩
  have hup : dotDot ∈ patternParts "*".toList := by
    rw [hparts]
    simp
  exact absurd hup (by decide)

/-- A pattern that starts with `..` lists a file of another run. -/
theorem matches_leave_run : ¬ StaysBelow twoRuns [['m'], ['1']]
    (findMatches twoRuns "/m/1".toList "../2/y".toList) := by
  have hfound : findMatches twoRuns "/m/1".toList "../2/y".toList = .ok ["/m/1/../2/y".toList] :=
    rfl
  rw [hfound]
  rintro ⟨-, h⟩
  exact absurd (h _ List.mem_cons_self).2.1 (by decide)

end Sample

end Accel.Model
