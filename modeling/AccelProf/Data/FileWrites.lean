import AccelProf.Data.FileTree

/-! Making a directory or a file at a path of a tree: when it succeeds and what it changes. -/

namespace Accel.Data
namespace FileTree
variable {N C : Type} [DecidableEq N] {ok : N → Prop} {d d' : FileTree N C} {n : N} {p q : List N}
  {c : C}

/-- The directory with file `n` written; a subdirectory of that name is in the way. -/
def setFile (n : N) (c : C) : FileTree N C → Option (FileTree N C)
  | empty => some (file n c empty)
  | file m c' rest => if m = n then some (file m c rest) else (rest.setFile n c).map (file m c')
  | dir m sub rest => if m = n then none else (rest.setFile n c).map (dir m sub)

/-- The directory with `f` done in its subdirectory `n`, made first where `create` says so; a file
of that name is in the way. -/
def inDir (create : Bool) (n : N) (f : FileTree N C → Option (FileTree N C)) :
    FileTree N C → Option (FileTree N C)
  | empty => if create then (f empty).map fun sub => dir n sub empty else none
  | file m c rest => if m = n then none else (rest.inDir create n f).map (file m c)
  | dir m sub rest =>
    if m = n then (f sub).map fun sub' => dir m sub' rest
    else (rest.inDir create n f).map (dir m sub)

/-- Every directory on the path, made where it is missing. -/
def mkdirs : List N → FileTree N C → Option (FileTree N C)
  | [], d => some d
  | n :: p, d => d.inDir true n fun sub => sub.mkdirs p

def write (c : C) : List N → FileTree N C → Option (FileTree N C)
  | [], _ => none
  | [n], d => d.setFile n c
  | n :: m :: p, d => d.inDir false n fun sub => sub.write c (m :: p)

theorem setFile_eq_some (h : d.setFile n c = some d') :
    ∀ m, d'.find m = if m = n then some (.file c) else d.find m := by
  induction d generalizing d' with
  | empty =>
    obtain rfl := Option.some.inj h
    intro m
    simp only [find, eq_comm]
  | file k c' rest ih =>
    intro m
    unfold setFile at h
    split_ifs at h with hk
    · obtain rfl := Option.some.inj h
      by_cases hm : m = n
      · simp [find, hk, hm]
      · simp [find, hm, hk, Ne.symm hm]
    · obtain ⟨d₁, hd₁, rfl⟩ := Option.map_eq_some_iff.1 h
      have := ih hd₁ m
      by_cases hm : k = m
      · simp [find, hm, hm ▸ hk]
      · simp [find, hm, this]
  | dir k sub rest ih₁ ih₂ =>
    intro m
    unfold setFile at h
    split_ifs at h with hk
    obtain ⟨d₁, hd₁, rfl⟩ := Option.map_eq_some_iff.1 h
    have := ih₂ hd₁ m
    by_cases hm : k = m
    · simp [find, hm, hm ▸ hk]
    · simp [find, hm, this]

theorem setFile_not_dir (h : d.setFile n c = some d') (sub : FileTree N C) :
    d.find n ≠ some (.dir sub) := by
  induction d generalizing d' with
  | empty => simp [find]
  | file k c' rest ih =>
    unfold setFile at h
    split_ifs at h with hk
    · simp [find, hk]
    · obtain ⟨d₁, hd₁, rfl⟩ := Option.map_eq_some_iff.1 h
      simpa [find, hk] using ih hd₁
  | dir k s rest ih₁ ih₂ =>
    unfold setFile at h
    split_ifs at h with hk
    obtain ⟨d₁, hd₁, rfl⟩ := Option.map_eq_some_iff.1 h
    simpa [find, hk] using ih₂ hd₁

theorem exists_setFile (h : ∀ sub, d.find n ≠ some (.dir sub)) : ∃ d', d.setFile n c = some d' := by
  induction d with
  | empty => exact ⟨_, rfl⟩
  | file k c' rest ih =>
    by_cases hk : k = n
    · exact ⟨_, if_pos hk⟩
    · obtain ⟨d', hd'⟩ := ih (by simpa [find, hk] using h)
      exact ⟨_, by rw [setFile, if_neg hk, hd']; rfl⟩
  | dir k sub rest ih₁ ih₂ =>
    by_cases hk : k = n
    · exact absurd (if_pos hk) (h sub)
    · obtain ⟨d', hd'⟩ := ih₂ (by simpa [find, hk] using h)
      exact ⟨_, by rw [setFile, if_neg hk, hd']; rfl⟩

/-- The subdirectory in which `inDir` works. -/
def Enters (create : Bool) (d : FileTree N C) (n : N) (sub : FileTree N C) : Prop :=
  d.find n = some (.dir sub) ∨ create = true ∧ d.find n = none ∧ sub = empty

theorem inDir_eq_some {create : Bool} {f : FileTree N C → Option (FileTree N C)}
    (h : d.inDir create n f = some d') : ∃ sub sub', Enters create d n sub ∧ f sub = some sub' ∧
      ∀ m, d'.find m = if m = n then some (.dir sub') else d.find m := by
  induction d generalizing d' with
  | empty =>
    unfold inDir at h
    split_ifs at h with hc
    obtain ⟨sub', hsub', rfl⟩ := Option.map_eq_some_iff.1 h
    refine ⟨empty, sub', .inr ⟨hc, rfl, rfl⟩, hsub', fun m => ?_⟩
    simp only [find, eq_comm]
  | file k c rest ih =>
    unfold inDir at h
    split_ifs at h with hk
    obtain ⟨d₁, hd₁, rfl⟩ := Option.map_eq_some_iff.1 h
    obtain ⟨sub, sub', henter, hf, hfind⟩ := ih hd₁
    refine ⟨sub, sub', by simpa [Enters, find, hk] using henter, hf, fun m => ?_⟩
    by_cases hm : k = m
    · simp [find, hm, hm ▸ hk]
    · simp [find, hm, hfind m]
  | dir k s rest ih₁ ih₂ =>
    unfold inDir at h
    split_ifs at h with hk
    · obtain ⟨sub', hsub', rfl⟩ := Option.map_eq_some_iff.1 h
      refine ⟨s, sub', .inl (by simp [find, hk]), hsub', fun m => ?_⟩
      by_cases hm : m = n
      · simp [find, hk, hm]
      · simp [find, hm, hk, Ne.symm hm]
    · obtain ⟨d₁, hd₁, rfl⟩ := Option.map_eq_some_iff.1 h
      obtain ⟨sub, sub', henter, hf, hfind⟩ := ih₂ hd₁
      refine ⟨sub, sub', by simpa [Enters, find, hk] using henter, hf, fun m => ?_⟩
      by_cases hm : k = m
      · simp [find, hm, hm ▸ hk]
      · simp [find, hm, hfind m]

theorem exists_inDir {create : Bool} {f : FileTree N C → Option (FileTree N C)}
    {sub sub' : FileTree N C}
    (h : Enters create d n sub) (hf : f sub = some sub') : ∃ d', d.inDir create n f = some d' := by
  induction d with
  | empty =>
    obtain h | ⟨rfl, -, rfl⟩ := h
    · cases h
    · exact ⟨_, by rw [inDir, if_pos rfl, hf]; rfl⟩
  | file k c rest ih =>
    by_cases hk : k = n
    · simp [Enters, find, hk] at h
    · obtain ⟨d', hd'⟩ := ih (by simpa [Enters, find, hk] using h)
      exact ⟨_, by rw [inDir, if_neg hk, hd']; rfl⟩
  | dir k s rest ih₁ ih₂ =>
    by_cases hk : k = n
    · have hs : s = sub := by simpa [Enters, find, hk] using h
      exact ⟨_, by rw [inDir, if_pos hk, hs, hf]; rfl⟩
    · obtain ⟨d', hd'⟩ := ih₂ (by simpa [Enters, find, hk] using h)
      exact ⟨_, by rw [inDir, if_neg hk, hd']; rfl⟩

theorem Enters.fileAt {create : Bool} {sub : FileTree N C} (h : Enters create d n sub)
    (q : List N) :
    d.fileAt (n :: q) = sub.fileAt q := by
  rw [fileAt_cons]
  obtain h | ⟨-, h, rfl⟩ := h
  · rw [h]
  · rw [h]
    cases q <;> rfl

theorem Enters.isDir {create : Bool} {sub : FileTree N C} (h : Enters create d n sub) (q : List N) :
    sub.isDir q = true ↔ d.isDir (n :: q) = true ∨ create = true ∧ d.find n = none ∧ q = [] := by
  rw [isDir_cons]
  obtain h | ⟨hc, h, rfl⟩ := h
  · simp [h]
  · cases q with
    | nil => simp [h, hc, isDir_nil]
    | cons m q => simp [h, isDir_cons, find]

/-- A write changes the file at its path and nothing else. -/
theorem write_eq_some (h : d.write c p = some d') :
    (∀ q, d'.fileAt q = if q = p then some c else d.fileAt q) ∧ ∀ q, d'.isDir q = d.isDir q := by
  induction p generalizing d d' with
  | nil => cases h
  | cons n p ih =>
    cases p with
    | nil =>
      -- a write does not take the place of a directory
      have hdir : ∀ sub, d.find n ≠ some (.dir sub) := setFile_not_dir h
      have hfind := setFile_eq_some h
      refine ⟨fun q => ?_, fun q => ?_⟩
      · cases q with
        | nil => rfl
        | cons m q =>
          rw [fileAt_cons, fileAt_cons, hfind m]
          by_cases hm : m = n
          · subst hm
            by_cases hq : q = []
            · simp [hq]
            · cases hf : d.find m with
              | none => simp [hq]
              | some x =>
                cases x with
                | file c' => simp [hq]
                | dir sub => exact absurd hf (hdir sub)
          · simp [hm]
      · cases q with
        | nil => rfl
        | cons m q =>
          rw [isDir_cons, isDir_cons, hfind m]
          by_cases hm : m = n
          · subst hm
            cases hf : d.find m with
            | none => simp
            | some x =>
              cases x with
              | file c' => simp
              | dir sub => exact absurd hf (hdir sub)
          · simp [hm]
    | cons m p =>
      -- only the subdirectory the path goes through changes
      obtain ⟨sub, sub', henter, hf, hfind⟩ := inDir_eq_some h
      obtain ⟨hfile, hdir⟩ := ih hf
      have hsub : d.find n = some (.dir sub) := henter.resolve_right (by simp)
      refine ⟨fun q => ?_, fun q => ?_⟩
      · cases q with
        | nil => rfl
        | cons k q =>
          rw [fileAt_cons, fileAt_cons, hfind k]
          by_cases hk : k = n
          · subst hk
            simp [hsub, hfile q]
          · simp [hk]
      · cases q with
        | nil => rfl
        | cons k q =>
          rw [isDir_cons, isDir_cons, hfind k]
          by_cases hk : k = n
          · subst hk
            simp [hsub, hdir q]
          · simp [hk]

theorem exists_write {dirs : List N} (hdir : d.isDir dirs = true)
    (hfree : d.isDir (dirs ++ [n]) = false) :
    ∃ d', d.write c (dirs ++ [n]) = some d' := by
  induction dirs generalizing d with
  | nil =>
    refine exists_setFile fun sub hsub => ?_
    rw [List.nil_append, isDir_cons, hsub] at hfree
    cases hfree
  | cons m dirs ih =>
    rw [isDir_cons] at hdir
    rw [List.cons_append, isDir_cons] at hfree
    cases hf : d.find m with
    | none =>
      rw [hf] at hdir
      cases hdir
    | some x =>
      rw [hf] at hdir hfree
      cases x with
      | file c' => cases hdir
      | dir sub =>
        obtain ⟨sub', hsub'⟩ := ih hdir hfree
        have henter : Enters false d m sub := .inl hf
        obtain ⟨d', hd'⟩ := exists_inDir (f := fun sub => sub.write c (dirs ++ [n])) henter hsub'
        refine ⟨d', ?_⟩
        cases dirs <;> exact hd'

/-- Making directories leaves the files alone and adds the path's own prefixes. -/
theorem mkdirs_eq_some (h : d.mkdirs p = some d') : (∀ q, d'.fileAt q = d.fileAt q) ∧
    ∀ q, d'.isDir q = true ↔ d.isDir q = true ∨ q <+: p := by
  induction p generalizing d d' with
  | nil =>
    obtain rfl := Option.some.inj h
    refine ⟨fun q => rfl, fun q => ⟨.inl, ?_⟩⟩
    rintro (hq | hq)
    · exact hq
    · rw [List.prefix_nil.1 hq, isDir_nil]
  | cons n p ih =>
    obtain ⟨sub, sub', henter, hf, hfind⟩ := inDir_eq_some h
    obtain ⟨hfile, hdir⟩ := ih hf
    refine ⟨fun q => ?_, fun q => ?_⟩
    · cases q with
      | nil => rfl
      | cons m q =>
        by_cases hm : m = n
        · subst hm
          rw [fileAt_cons, hfind m, if_pos rfl, henter.fileAt]
          exact hfile q
        · rw [fileAt_cons, fileAt_cons, hfind m, if_neg hm]
    · cases q with
      | nil => simp [isDir_nil]
      | cons m q =>
        by_cases hm : m = n
        · subst hm
          rw [isDir_cons, hfind m, if_pos rfl, List.cons_prefix_cons, and_iff_right rfl]
          show sub'.isDir q = true ↔ _
          rw [hdir q, henter.isDir]
          constructor
          · rintro ((hq | ⟨-, -, rfl⟩) | hq)
            · exact .inl hq
            · exact .inr (List.nil_prefix)
            · exact .inr hq
          · exact Or.imp_left .inl
        · rw [isDir_cons, isDir_cons, hfind m, if_neg hm, List.cons_prefix_cons]
          simp [hm]

theorem exists_mkdirs (h : ∀ q, q <+: p → d.fileAt q = none) : ∃ d', d.mkdirs p = some d' := by
  induction p generalizing d with
  | nil => exact ⟨d, rfl⟩
  | cons n p ih =>
    obtain ⟨sub, henter⟩ : ∃ sub, Enters true d n sub := by
      cases hf : d.find n with
      | none => exact ⟨empty, .inr ⟨rfl, hf, rfl⟩⟩
      | some x =>
        cases x with
        | file c =>
          have := h [n] (by simp)
          simp [fileAt_cons, hf] at this
        | dir sub => exact ⟨sub, .inl hf⟩
    obtain ⟨sub', hsub'⟩ := ih (d := sub) fun q hq => by
      rw [← henter.fileAt]
      exact h (n :: q) (List.cons_prefix_cons.2 ⟨rfl, hq⟩)
    exact exists_inDir henter hsub'

theorem not_mem_names {m : N} (h : m ∉ d.names) (hm : m ≠ n) {x : Node N C}
    (hfind : ∀ m, d'.find m = if m = n then some x else d.find m) : m ∉ d'.names := by
  rw [← find_eq_none_iff, hfind m, if_neg hm, find_eq_none_iff]
  exact h

theorem Valid.setFile (hd : d.Valid ok) (hn : ok n) (h : d.setFile n c = some d') :
    d'.Valid ok := by
  induction d generalizing d' with
  | empty =>
    obtain rfl := Option.some.inj h
    exact ⟨hn, by simp [names], trivial⟩
  | file k c' rest ih =>
    unfold FileTree.setFile at h
    split_ifs at h with hk
    · obtain rfl := Option.some.inj h
      exact hd
    · obtain ⟨d₁, hd₁, rfl⟩ := Option.map_eq_some_iff.1 h
      exact ⟨hd.1, not_mem_names hd.2.1 hk (setFile_eq_some hd₁), ih hd.2.2 hd₁⟩
  | dir k sub rest ih₁ ih₂ =>
    unfold FileTree.setFile at h
    split_ifs at h with hk
    obtain ⟨d₁, hd₁, rfl⟩ := Option.map_eq_some_iff.1 h
    exact ⟨hd.1, not_mem_names hd.2.1 hk (setFile_eq_some hd₁), hd.2.2.1, ih₂ hd.2.2.2 hd₁⟩

theorem Valid.inDir {create : Bool} {f : FileTree N C → Option (FileTree N C)} (hd : d.Valid ok)
    (hn : ok n)
    (hf : ∀ sub sub', sub.Valid ok → f sub = some sub' → sub'.Valid ok)
    (h : d.inDir create n f = some d') : d'.Valid ok := by
  induction d generalizing d' with
  | empty =>
    unfold FileTree.inDir at h
    split_ifs at h
    obtain ⟨sub', hsub', rfl⟩ := Option.map_eq_some_iff.1 h
    exact ⟨hn, by simp [names], hf empty _ trivial hsub', trivial⟩
  | file k c rest ih =>
    unfold FileTree.inDir at h
    split_ifs at h with hk
    obtain ⟨d₁, hd₁, rfl⟩ := Option.map_eq_some_iff.1 h
    obtain ⟨_, _, _, _, hfind⟩ := inDir_eq_some hd₁
    exact ⟨hd.1, not_mem_names hd.2.1 hk hfind, ih hd.2.2 hd₁⟩
  | dir k s rest ih₁ ih₂ =>
    unfold FileTree.inDir at h
    split_ifs at h with hk
    · obtain ⟨sub', hsub', rfl⟩ := Option.map_eq_some_iff.1 h
      exact ⟨hd.1, hd.2.1, hf _ _ hd.2.2.1 hsub', hd.2.2.2⟩
    · obtain ⟨d₁, hd₁, rfl⟩ := Option.map_eq_some_iff.1 h
      obtain ⟨_, _, _, _, hfind⟩ := inDir_eq_some hd₁
      exact ⟨hd.1, not_mem_names hd.2.1 hk hfind, hd.2.2.1, ih₂ hd.2.2.2 hd₁⟩

theorem Valid.write (hd : d.Valid ok) (hp : ∀ n ∈ p, ok n) (h : d.write c p = some d') :
    d'.Valid ok := by
  induction p generalizing d d' with
  | nil => cases h
  | cons n p ih =>
    obtain ⟨hn, hp⟩ := List.forall_mem_cons.1 hp
    cases p with
    | nil => exact hd.setFile hn h
    | cons m p => exact hd.inDir hn (fun _ _ hsub hw => ih hsub hp hw) h

theorem Valid.mkdirs (hd : d.Valid ok) (hp : ∀ n ∈ p, ok n) (h : d.mkdirs p = some d') :
    d'.Valid ok := by
  induction p generalizing d d' with
  | nil => exact Option.some.inj h ▸ hd
  | cons n p ih =>
    obtain ⟨hn, hp⟩ := List.forall_mem_cons.1 hp
    exact hd.inDir hn (fun _ _ hsub hw => ih hsub hp hw) h

end FileTree
end Accel.Data
