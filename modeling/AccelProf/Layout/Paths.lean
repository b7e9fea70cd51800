import AccelProf.Model.FileSystem
import AccelProf.Model.RunPrefix

/-! Paths whose components are names: joined, split, normalised and made, they keep their
components. -/

namespace Accel.Model
open Data

variable {n : Str} {ns comps cur start : List Str} {p cwd : Str}

/-- `"/".join(comps)` -/
def joined (comps : List Str) : Str := (comps.intersperse ['/']).flatten

theorem slashed_eq (comps : List Str) : slashed comps = '/' :: joined comps := rfl

theorem joined_cons_cons (a b : Str) (comps : List Str) :
    joined (a :: b :: comps) = a ++ '/' :: joined (b :: comps) := by
  unfold joined
  simp

theorem joined_singleton (a : Str) : joined [a] = a := by
  unfold joined
  simp

theorem splitOn_joined (hne : comps ≠ []) (h : ∀ c ∈ comps, '/' ∉ c) :
    (joined comps).splitOn '/' = comps := List.splitOn_intercalate '/' h hne

section Names

theorem IsName.ne_nil (h : IsName n) : n ≠ [] := h.1

theorem IsName.slash_not_mem (h : IsName n) : '/' ∉ n := h.2.2.2

theorem slash_not_mem_of_names (h : ∀ n ∈ ns, IsName n) : ∀ n ∈ ns, '/' ∉ n :=
  fun n hn => (h n hn).slash_not_mem

theorem IsName.head_ne (h : IsName n) : n.head? ≠ some '/' :=
  fun hh => h.slash_not_mem (List.mem_of_head? hh)

theorem IsName.getLast_ne (h : IsName n) : n.getLast? ≠ some '/' :=
  fun hl => h.slash_not_mem (List.mem_of_getLast? hl)

/-- Joined names neither start nor end with a slash. -/
theorem joined_ends (hne : ns ≠ []) (h : ∀ n ∈ ns, IsName n) :
    joined ns ≠ [] ∧ (joined ns).head? ≠ some '/' ∧ (joined ns).getLast? ≠ some '/' := by
  induction ns with
  | nil => exact absurd rfl hne
  | cons a ns ih =>
    obtain ⟨ha, hns⟩ := List.forall_mem_cons.1 h
    cases ns with
    | nil =>
      rw [joined_singleton]
      exact ⟨ha.ne_nil, ha.head_ne, ha.getLast_ne⟩
    | cons b ns =>
      obtain ⟨hj, -, hlast⟩ := ih (by simp) hns
      rw [joined_cons_cons]
      have hcons : '/' :: joined (b :: ns) ≠ [] := by simp
      refine ⟨by simp, ?_, ?_⟩
      · rw [List.head?_append_of_ne_nil _ ha.ne_nil]
        exact ha.head_ne
      · rw [List.getLast?_append_of_ne_nil _ hcons, List.getLast?_cons_of_ne_nil hj]
        exact hlast

theorem normStep_name (h : IsName n) (absolute : Bool) (kept : List Str) :
    normStep absolute kept n = kept ++ [n] := by
  have h₁ : ¬ (n = [] ∨ n = dot) := not_or.2 ⟨h.1, h.2.1⟩
  unfold normStep
  rw [if_neg h₁, if_pos (.inl h.2.2.1)]

theorem foldl_normStep_names (h : ∀ n ∈ ns, IsName n) (kept : List Str) :
    ns.foldl (normStep true) kept = kept ++ ns := by
  induction ns generalizing kept with
  | nil => simp
  | cons a ns ih =>
    obtain ⟨ha, hns⟩ := List.forall_mem_cons.1 h
    rw [List.foldl_cons, normStep_name ha, ih hns]
    simp

theorem normStep_names {comp : Str} (hc : '/' ∉ comp) (h : ∀ n ∈ cur, IsName n) :
    ∀ n ∈ normStep true cur comp, IsName n := by
  unfold normStep
  split_ifs with h₁ h₂
  · exact h
  · intro n hn
    rcases List.mem_append.1 hn with hn | hn
    · exact h n hn
    · rw [List.mem_singleton.1 hn]
      refine ⟨fun h => h₁ (.inl h), fun h => h₁ (.inr h), ?_, hc⟩
      rcases h₂ with h₂ | h₂ | h₂
      · exact h₂
      · simp at h₂
      · have hlast := h _ (List.mem_of_getLast? h₂)
        exact absurd rfl hlast.2.2.1
  · exact fun n hn => h n (List.mem_of_mem_dropLast hn)

theorem foldl_normStep_all (hc : ∀ c ∈ comps, '/' ∉ c) (h : ∀ n ∈ cur, IsName n) :
    ∀ n ∈ comps.foldl (normStep true) cur, IsName n := by
  induction comps generalizing cur with
  | nil => exact h
  | cons c comps ih =>
    obtain ⟨hc₁, hc₂⟩ := List.forall_mem_cons.1 hc
    exact ih hc₂ (normStep_names hc₁ h)

theorem slash_not_mem_splitOn {s comp : Str} (h : comp ∈ s.splitOn '/') : '/' ∉ comp := by
  induction s generalizing comp with
  | nil =>
    have : comp = [] := by simpa [List.splitOn_nil] using h
    simp [this]
  | cons x xs ih =>
    obtain ⟨y, ys, hys⟩ := List.exists_cons_of_ne_nil (List.splitOn_ne_nil '/' xs)
    rw [List.splitOn_cons_eq_if_modifyHead, hys] at h
    rw [hys] at ih
    split_ifs at h with hx
    · rcases List.mem_cons.1 h with rfl | h
      · simp
      · exact ih h
    · rw [List.modifyHead_cons] at h
      rcases List.mem_cons.1 h with rfl | h
      · have hne : '/' ≠ x := fun he => hx (beq_iff_eq.2 he.symm)
        have hy : '/' ∉ y := ih List.mem_cons_self
        simp [hne, hy]
      · exact ih (List.mem_cons_of_mem _ h)

theorem realComponents_names (cwd p : Str) : ∀ n ∈ realComponents cwd p, IsName n :=
  foldl_normStep_all (fun _ hc => slash_not_mem_splitOn hc) (by simp)

end Names

section Join

theorem pathJoin_of_absolute (a : Str) (h : p.head? = some '/') : pathJoin a p = p := by
  unfold pathJoin
  rw [if_pos h]

theorem splitOn_slashed (h : ∀ n ∈ ns, '/' ∉ n) (hne : ns ≠ []) :
    (slashed ns).splitOn '/' = [] :: ns := by
  rw [slashed_eq, ← List.nil_append ('/' :: joined ns), List.splitOn_append_cons_self_of_not_mem
    (by simp),
    splitOn_joined hne h]

theorem foldl_slashed {α : Type} {f : α → Str → α} {a : α} (h : ∀ n ∈ ns, '/' ∉ n)
    (hf : f a [] = a) : ((slashed ns).splitOn '/').foldl f a = ns.foldl f a := by
  cases ns with
  | nil =>
    have : (slashed []).splitOn '/' = [[], []] := rfl
    simp [this, hf]
  | cons b ns => rw [splitOn_slashed h (by simp), List.foldl_cons, hf]

theorem foldl_split_append {α : Type} (f : α → Str → α) (a : α) (s t : Str) :
    ((s ++ '/' :: t).splitOn '/').foldl f a =
      (t.splitOn '/').foldl f ((s.splitOn '/').foldl f a) := by
  rw [List.splitOn_append_cons_self, List.foldl_append]

theorem normStep_nil (absolute : Bool) (kept : List Str) : normStep absolute kept [] = kept := by
  unfold normStep
  rw [if_pos (.inl rfl)]

theorem realComponents_slashed (cwd : Str) (h : ∀ n ∈ ns, IsName n) :
    realComponents cwd (slashed ns) = ns := by
  unfold realComponents
  rw [pathJoin_of_absolute _ rfl, foldl_slashed (slash_not_mem_of_names h) (normStep_nil ..),
    foldl_normStep_names h]
  rfl

theorem pathJoin_slashed (h : ∀ n ∈ ns, IsName n) (hp : p.head? ≠ some '/') :
    pathJoin (slashed ns) p = if ns = [] then '/' :: p else slashed ns ++ '/' :: p := by
  unfold pathJoin
  rw [if_neg hp]
  by_cases hne : ns = []
  · subst hne
    rfl
  · obtain ⟨hj, -, hl⟩ := joined_ends hne h
    have hlast : ¬ (slashed ns = [] ∨ (slashed ns).getLast? = some '/') := by
      rw [slashed_eq, List.getLast?_cons_of_ne_nil hj]
      simpa using hl
    rw [if_neg hlast, if_neg hne]

/-- A relative path is normalised from the directory it is joined to. -/
theorem foldl_pathJoin (h : ∀ n ∈ ns, IsName n) (hp : p.head? ≠ some '/') :
    ((pathJoin (slashed ns) p).splitOn '/').foldl (normStep true) [] =
      (p.splitOn '/').foldl (normStep true) ns := by
  rw [pathJoin_slashed h hp]
  split_ifs with hne
  · subst hne
    rw [← List.nil_append ('/' :: p), foldl_split_append, List.splitOn_nil, List.foldl_cons,
      normStep_nil,
      List.foldl_nil]
  · rw [foldl_split_append, foldl_slashed (slash_not_mem_of_names h) (normStep_nil ..),
      foldl_normStep_names h, List.nil_append]

theorem realComponents_join (cwd : Str) (h : ∀ n ∈ ns, IsName n) (hp : p.head? ≠ some '/') :
    realComponents cwd (pathJoin (slashed ns) p) = (p.splitOn '/').foldl (normStep true) ns := by
  have habs : (pathJoin (slashed ns) p).head? = some '/' := by
    rw [pathJoin_slashed h hp]
    split_ifs <;> rfl
  unfold realComponents
  rw [pathJoin_of_absolute _ habs, foldl_pathJoin h hp]

/-- Components are appended to those of the path in front, whatever its form. -/
theorem foldl_pathJoin_append (x : Str) (hp : p.head? ≠ some '/') :
    ((pathJoin x p).splitOn '/').foldl (normStep true) [] =
      (p.splitOn '/').foldl (normStep true) ((x.splitOn '/').foldl (normStep true) []) := by
  unfold pathJoin
  rw [if_neg hp]
  split_ifs with hx
  · rcases hx with rfl | hx
    · rw [List.nil_append, List.splitOn_nil, List.foldl_cons, normStep_nil, List.foldl_nil]
    · have hlast : x.dropLast ++ ['/'] = x := List.dropLast_append_getLast? _ hx
      rw [← hlast, List.append_assoc, List.singleton_append, foldl_split_append, foldl_split_append,
        List.splitOn_nil, List.foldl_cons, normStep_nil, List.foldl_nil]
  · exact foldl_split_append ..

theorem pathJoin_of_relative (x : Str) (hp : p.head? ≠ some '/') :
    pathJoin x p = if x = [] ∨ x.getLast? = some '/' then x ++ p else x ++ '/' :: p := if_neg hp

theorem pathJoin_assoc {x y : Str} (hy : y ≠ []) (hp : p.head? ≠ some '/') :
    pathJoin x (pathJoin y p) = pathJoin (pathJoin x y) p := by
  have hfront : ∀ z : Str, (y ++ z).head? = y.head? := fun z => List.head?_append_of_ne_nil y hy
  have hback : ∀ z : Str, (z ++ y).getLast? = y.getLast? :=
    fun z => List.getLast?_append_of_ne_nil z hy
  have hslash : ('/' :: y).getLast? = y.getLast? := List.getLast?_cons_of_ne_nil hy
  have hhead : (pathJoin y p).head? = y.head? := by
    rw [pathJoin_of_relative y hp]
    split_ifs <;> exact hfront _
  by_cases habs : y.head? = some '/'
  · have hxy : pathJoin x y = y := pathJoin_of_absolute x habs
    rw [hxy, pathJoin_of_absolute x (hhead.trans habs)]
  · have hrel : (pathJoin y p).head? ≠ some '/' := hhead ▸ habs
    rw [pathJoin_of_relative x hrel, pathJoin_of_relative x habs, pathJoin_of_relative y hp]
    by_cases hx : x = [] ∨ x.getLast? = some '/' <;> by_cases hl : y.getLast? = some '/' <;>
      simp [pathJoin_of_relative _ hp, hx, hl, hy, hback, hslash]

theorem realComponents_pathJoin (cwd : Str) {x : Str} (hx : x ≠ []) (hp : p.head? ≠ some '/') :
    realComponents cwd (pathJoin x p) =
    (p.splitOn '/').foldl (normStep true) (realComponents cwd x) := by
  unfold realComponents
  rw [pathJoin_assoc hx hp, foldl_pathJoin_append _ hp]

theorem realpath_join (cwd : Str) (hs : ∀ n ∈ start, IsName n) (hn : ns ≠ [])
    (h : ∀ n ∈ ns, IsName n) :
    realpath cwd (pathJoin (slashed start) (joined ns)) = slashed (start ++ ns) := by
  unfold realpath
  rw [realComponents_join cwd hs (joined_ends hn h).2.1, splitOn_joined hn
    (slash_not_mem_of_names h),
    foldl_normStep_names h]

theorem joined_append (hne : ns ≠ []) {ms : List Str} (hms : ms ≠ []) :
    joined (ns ++ ms) = joined ns ++ '/' :: joined ms := by
  induction ns with
  | nil => exact absurd rfl hne
  | cons a ns ih =>
    cases ns with
    | nil =>
      obtain ⟨b, ms, rfl⟩ := List.exists_cons_of_ne_nil hms
      rw [List.singleton_append, joined_cons_cons, joined_singleton]
    | cons b ns =>
      rw [List.cons_append, List.cons_append, joined_cons_cons, joined_cons_cons,
        ← List.cons_append,
        ih (by simp)]
      simp

theorem slashed_append (hne : ns ≠ []) {ms : List Str} (hms : ms ≠ []) :
    slashed (ns ++ ms) = slashed ns ++ '/' :: joined ms := by
  rw [slashed_eq, slashed_eq, joined_append hne hms, List.cons_append]

theorem dirname_slashed (h : ∀ n ∈ ns, IsName n) (hn : IsName n) :
    dirname (slashed (ns ++ [n])) = slashed ns := by
  have hfield : ∀ s : Str, lastField (s ++ '/' :: n) = n := fun s => by
    unfold lastField
    rw [List.splitOn_append_cons_self, List.splitOn_eq_singleton hn.slash_not_mem]
    simp
  have htake : ∀ s : Str, (s ++ '/' :: n).take ((s ++ '/' :: n).length - n.length) = s ++ ['/'] :=
    fun s => by
      have hlen : (s ++ '/' :: n).length - n.length = (s ++ ['/']).length := by
        simp only [List.length_append, List.length_cons, List.length_nil]
        omega
      have happ : s ++ '/' :: n = (s ++ ['/']) ++ n := by simp
      rw [hlen, happ, List.take_left]
  by_cases hne : ns = []
  · subst hne
    have hs : slashed ([] ++ [n]) = [] ++ '/' :: n := by
      rw [List.nil_append, slashed_eq, joined_singleton]; rfl
    unfold dirname
    rw [hs, hfield, htake]
    rfl
  · have hs : slashed (ns ++ [n]) = slashed ns ++ '/' :: n := by
      rw [slashed_append hne (by simp), joined_singleton]
    obtain ⟨hj, hhead, hlast⟩ := joined_ends hne h
    have hall : (slashed ns ++ ['/']).all (· == '/') = false := by
      obtain ⟨x, xs, hx⟩ := List.exists_cons_of_ne_nil hj
      rw [slashed_eq, hx]
      rw [hx] at hhead
      have hxs : x ≠ '/' := fun he => hhead (by rw [he]; rfl)
      simp [hxs]
    have hstrip : rstrip '/' (slashed ns) = slashed ns := by
      refine List.rdropWhile_eq_self_iff.2 fun hl hc => hlast ?_
      rw [beq_iff_eq] at hc
      have : (slashed ns).getLast? = some '/' := by rw [List.getLast?_eq_getLast_of_ne_nil hl, hc]
      rwa [slashed_eq, List.getLast?_cons_of_ne_nil hj] at this
    unfold dirname
    rw [hs, hfield, htake]
    simp only [hall, Bool.false_eq_true, if_false]
    rw [rstrip_concat, hstrip]

end Join

section Make
variable {d : Dir}

theorem makedirsStep_name {d' : Dir} (hn : IsName n) (h : d.mkdirs (cur ++ [n]) = some d') :
    makedirsStep (d, some cur) n = (d', some (cur ++ [n])) := by
  unfold makedirsStep
  simp only [hn.1, hn.2.1, hn.2.2.1, or_self, if_false, h]

/-- Directories can be made along names where no file stands; nothing else changes. -/
theorem foldl_makedirsStep (h : ∀ n ∈ ns, IsName n) (hcur : d.isDir cur = true)
    (hc : ∀ n ∈ cur, IsName n)
    (hfree : ∀ q, q <+: cur ++ ns → d.fileAt q = none) :
    ∃ d', ns.foldl makedirsStep (d, some cur) = (d', some (cur ++ ns)) ∧
      (d.Valid IsName → d'.Valid IsName) ∧ (∀ q, d'.fileAt q = d.fileAt q) ∧
      ∀ q, d'.isDir q = true ↔ d.isDir q = true ∨ q <+: cur ++ ns := by
  induction ns generalizing d cur with
  | nil =>
    refine ⟨d, by simp, id, fun q => rfl, fun q => ⟨.inl, ?_⟩⟩
    rintro (hq | hq)
    · exact hq
    · rw [List.append_nil] at hq
      exact FileTree.isDir_of_prefix hcur hq
  | cons n ns ih =>
    obtain ⟨hn, hns⟩ := List.forall_mem_cons.1 h
    have happ : cur ++ n :: ns = (cur ++ [n]) ++ ns := by simp
    have hpre : cur ++ [n] <+: cur ++ n :: ns := happ ▸ List.prefix_append _ _
    obtain ⟨d₁, hd₁⟩ := FileTree.exists_mkdirs fun q hq => hfree q (hq.trans hpre)
    obtain ⟨hfile, hdir⟩ := FileTree.mkdirs_eq_some hd₁
    have hcur₁ : d₁.isDir (cur ++ [n]) = true := (hdir _).2 (.inr List.prefix_rfl)
    have hc₁ : ∀ m ∈ cur ++ [n], IsName m := by simpa [or_imp, forall_and, hn] using hc
    obtain ⟨d', hd', hvalid', hfile', hdir'⟩ := ih hns hcur₁ hc₁ fun q hq => by
      rw [hfile]
      exact hfree q (happ ▸ hq)
    refine ⟨d', ?_, fun hd => hvalid' (hd.mkdirs hc₁ hd₁), fun q => (hfile' q).trans (hfile q),
      fun q => ?_⟩
    · rw [List.foldl_cons, makedirsStep_name hn hd₁, hd', happ]
    · rw [hdir' q, hdir q, happ]
      constructor
      · rintro ((hq | hq) | hq)
        · exact .inl hq
        · exact .inr (hq.trans (List.prefix_append _ _))
        · exact .inr hq
      · exact Or.imp_left .inl

theorem makedirs_slashed (cwd : Str) (h : ∀ n ∈ ns, IsName n)
    (hfree : ∀ q, q <+: ns → d.fileAt q = none) :
    ∃ d', makedirs cwd (slashed ns) d = (d', true) ∧ (d.Valid IsName → d'.Valid IsName) ∧
      (∀ q, d'.fileAt q = d.fileAt q) ∧ ∀ q, d'.isDir q = true ↔ d.isDir q = true ∨ q <+: ns := by
  have hroot := FileTree.isDir_nil d
  obtain ⟨d', hd', hvalid, hfile, hdir⟩ := foldl_makedirsStep h hroot (by simp) hfree
  refine ⟨d', ?_, hvalid, hfile, hdir⟩
  have hstep : makedirsStep (d, some []) [] = (d, some []) := rfl
  unfold makedirs
  rw [if_neg (by rw [slashed_eq]; simp), pathJoin_of_absolute _ rfl,
    foldl_slashed (slash_not_mem_of_names h) hstep, hd']
  rfl

end Make

end Accel.Model
