import Mathlib

/-! Directories as trees of named entries: the files below one, what a path leads to and how a walk
lists a tree. -/

namespace Accel.Data

/-- The entries of a directory, in the order a scan returns them. -/
inductive FileTree (N C : Type) where
  | empty
  | file (name : N) (content : C) (rest : FileTree N C)
  | dir (name : N) (sub rest : FileTree N C)

inductive Node (N C : Type) where
  | file (content : C)
  | dir (sub : FileTree N C)

namespace FileTree
variable {N C S : Type} {ok : N → Prop} {d d' : FileTree N C} {n : N} {p q : List N} {c : C}

def names : FileTree N C → List N
  | empty => []
  | file n _ rest => n :: rest.names
  | dir n _ rest => n :: rest.names

/-- The files that stand in the directory itself. -/
def ownFiles : FileTree N C → List (N × C)
  | empty => []
  | file n c rest => (n, c) :: rest.ownFiles
  | dir _ _ rest => rest.ownFiles

/-- The files in its subdirectories, by path. -/
def nested : FileTree N C → List (List N × C)
  | empty => []
  | file _ _ rest => rest.nested
  | dir n sub rest =>
    (sub.ownFiles.map (fun f => ([n, f.1], f.2)) ++ sub.nested.map fun f => (n :: f.1, f.2)) ++
      rest.nested

/-- Every file of the tree by its path, the directory's own files first. -/
def files (d : FileTree N C) : List (List N × C) :=
  d.ownFiles.map (fun f => ([f.1], f.2)) ++ d.nested

/-- The subdirectories of `top`, each with the names of its files, in the order of a walk. -/
def walkNested (join : S → N → S) (top : S) : FileTree N C → List (S × List N)
  | empty => []
  | file _ _ rest => rest.walkNested join top
  | dir n sub rest =>
    (join top n, sub.ownFiles.map Prod.fst) :: sub.walkNested join (join top n) ++
      rest.walkNested join top

def walk (join : S → N → S) (top : S) (d : FileTree N C) : List (S × List N) :=
  (top, d.ownFiles.map Prod.fst) :: d.walkNested join top

/-- Every name is allowed and stands once in its directory. -/
def Valid (ok : N → Prop) : FileTree N C → Prop
  | empty => True
  | file n _ rest => ok n ∧ n ∉ rest.names ∧ rest.Valid ok
  | dir n sub rest => ok n ∧ n ∉ rest.names ∧ sub.Valid ok ∧ rest.Valid ok

instance decidableValid [DecidableEq N] (ok : N → Prop) [DecidablePred ok] :
    (d : FileTree N C) → Decidable (d.Valid ok)
  | empty => .isTrue trivial
  | file n _ rest =>
    have := rest.decidableValid ok
    inferInstanceAs (Decidable (ok n ∧ n ∉ rest.names ∧ rest.Valid ok))
  | dir n sub rest =>
    have := sub.decidableValid ok
    have := rest.decidableValid ok
    inferInstanceAs (Decidable (ok n ∧ n ∉ rest.names ∧ sub.Valid ok ∧ rest.Valid ok))

theorem files_dir (n : N) (sub rest : FileTree N C) : (dir n sub rest).files.Perm
    (sub.files.map (fun f => (n :: f.1, f.2)) ++ rest.files) := by
  simp only [files, ownFiles, nested, List.map_append, List.map_map, Function.comp_def]
  exact List.perm_append_comm_assoc ..

/-- The walk meets the files in the order of `files`. -/
theorem flatMap_walkNested (join : S → N → S) (top : S) (d : FileTree N C) :
    (d.walkNested join top).flatMap (fun e => e.2.map (join e.1)) =
      d.nested.map fun f => f.1.foldl join top := by
  induction d generalizing top with
  | empty => rfl
  | file n c rest ih => exact ih top
  | dir n sub rest ih₁ ih₂ =>
    simp only [walkNested, nested, List.cons_append, List.flatMap_cons, List.flatMap_append, ih₁,
      ih₂,
      List.map_append, List.map_map, Function.comp_def, List.foldl_cons, List.foldl_nil,
      List.append_assoc]

theorem flatMap_walk (join : S → N → S) (top : S) (d : FileTree N C) :
    (d.walk join top).flatMap (fun e => e.2.map (join e.1)) = d.files.map fun f =>
    f.1.foldl join top := by
  simp only [walk, files, List.flatMap_cons, flatMap_walkNested, List.map_append, List.map_map,
    Function.comp_def, List.foldl_cons, List.foldl_nil]

theorem mem_names_of_ownFiles (h : (n, c) ∈ d.ownFiles) : n ∈ d.names := by
  induction d with
  | empty => cases h
  | file m c' rest ih =>
    rcases List.mem_cons.1 h with h | h
    · exact List.mem_cons.2 (.inl (congrArg Prod.fst h))
    · exact List.mem_cons_of_mem _ (ih h)
  | dir m sub rest ih₁ ih₂ => exact List.mem_cons_of_mem _ (ih₂ h)

theorem mem_nested_dir {m : N} {sub rest : FileTree N C} {f : List N × C} :
    f ∈ (dir m sub rest).nested ↔ (∃ q, f.1 = m :: q ∧ (q, f.2) ∈ sub.files) ∨ f ∈ rest.nested := by
  obtain ⟨p, c⟩ := f
  simp only [nested, files, List.mem_append, List.mem_map, Prod.exists, Prod.mk.injEq]
  refine or_congr_left ⟨?_, ?_⟩
  · rintro (⟨a, b, hab, rfl, rfl⟩ | ⟨a, b, hab, rfl, rfl⟩)
    · exact ⟨_, rfl, .inl ⟨a, b, hab, rfl, rfl⟩⟩
    · exact ⟨_, rfl, .inr hab⟩
  · rintro ⟨q, rfl, ⟨a, b, hab, rfl, rfl⟩ | hq⟩
    · exact .inl ⟨a, b, hab, rfl, rfl⟩
    · exact .inr ⟨q, c, hq, rfl, rfl⟩

theorem mem_names_of_nested (h : (n :: p, c) ∈ d.nested) : n ∈ d.names := by
  induction d with
  | empty => cases h
  | file m c' rest ih => exact List.mem_cons_of_mem _ (ih h)
  | dir m sub rest ih₁ ih₂ =>
    rcases mem_nested_dir.1 h with ⟨q, hq, -⟩ | h
    · exact List.mem_cons.2 (.inl (List.cons.inj hq).1)
    · exact List.mem_cons_of_mem _ (ih₂ h)

theorem nil_not_mem_nested : ([], c) ∉ d.nested := by
  induction d with
  | empty => simp [nested]
  | file m c' rest ih => exact ih
  | dir m sub rest ih₁ ih₂ =>
    rw [mem_nested_dir]
    rintro (⟨q, hq, -⟩ | h)
    · cases hq
    · exact ih₂ h

theorem Valid.ok_of_mem (hd : d.Valid ok) (h : n ∈ d.names) : ok n := by
  induction d with
  | empty => cases h
  | file m c rest ih =>
    rcases List.mem_cons.1 h with rfl | h
    · exact hd.1
    · exact ih hd.2.2 h
  | dir m s rest ih₁ ih₂ =>
    rcases List.mem_cons.1 h with rfl | h
    · exact hd.1
    · exact ih₂ hd.2.2.2 h

section Lookup
variable [DecidableEq N]

def find (n : N) : FileTree N C → Option (Node N C)
  | empty => none
  | file m c rest => if m = n then some (.file c) else rest.find n
  | dir m sub rest => if m = n then some (.dir sub) else rest.find n

def node : List N → FileTree N C → Option (Node N C)
  | [], d => some (.dir d)
  | n :: p, d => match d.find n with
    | none => none
    | some (.file c) => if p = [] then some (.file c) else none
    | some (.dir sub) => sub.node p

def fileAt (p : List N) (d : FileTree N C) : Option C :=
  match d.node p with
  | some (.file c) => some c
  | _ => none

def isDir (p : List N) (d : FileTree N C) : Bool :=
  match d.node p with
  | some (.dir _) => true
  | _ => false

theorem find_eq_none_iff : d.find n = none ↔ n ∉ d.names := by
  induction d with
  | empty => simp [find, names]
  | file m c rest ih =>
    by_cases hm : m = n
    · simp [find, names, hm]
    · simp [find, names, hm, Ne.symm hm, ih]
  | dir m sub rest ih₁ ih₂ =>
    by_cases hm : m = n
    · simp [find, names, hm]
    · simp [find, names, hm, Ne.symm hm, ih₂]

theorem mem_names_of_find {x : Node N C} (h : d.find n = some x) : n ∈ d.names := by
  by_contra hn
  rw [find_eq_none_iff.2 hn] at h
  cases h

theorem mem_ownFiles (hd : d.Valid ok) : (n, c) ∈ d.ownFiles ↔ d.find n = some (.file c) := by
  induction d with
  | empty => simp [ownFiles, find]
  | file m c' rest ih =>
    obtain ⟨-, hm, hrest⟩ := hd
    by_cases hmn : m = n
    · subst hmn
      have : (m, c) ∉ rest.ownFiles := fun h => hm (mem_names_of_ownFiles h)
      simp [ownFiles, find, this, eq_comm]
    · simp [ownFiles, find, hmn, Ne.symm hmn, ih hrest]
  | dir m sub rest ih₁ ih₂ =>
    obtain ⟨-, hm, -, hrest⟩ := hd
    by_cases hmn : m = n
    · subst hmn
      have : (m, c) ∉ rest.ownFiles := fun h => hm (mem_names_of_ownFiles h)
      simp [ownFiles, find, this]
    · simp [ownFiles, find, hmn, ih₂ hrest]

theorem mem_nested (hd : d.Valid ok) : (n :: p, c) ∈ d.nested ↔
    ∃ sub, d.find n = some (.dir sub) ∧ (p, c) ∈ sub.files := by
  induction d with
  | empty => simp [nested, find]
  | file m c' rest ih =>
    obtain ⟨-, hm, hrest⟩ := hd
    by_cases hmn : m = n
    · subst hmn
      have : (m :: p, c) ∉ rest.nested := fun h => hm (mem_names_of_nested h)
      simp [nested, find, this]
    · simp [nested, find, hmn, ih hrest]
  | dir m sub rest ih₁ ih₂ =>
    obtain ⟨-, hm, -, hrest⟩ := hd
    rw [mem_nested_dir]
    by_cases hmn : m = n
    · subst hmn
      have : (m :: p, c) ∉ rest.nested := fun h => hm (mem_names_of_nested h)
      simp [find, this]
    · simp [find, hmn, Ne.symm hmn, ih₂ hrest]

theorem Valid.of_find (hd : d.Valid ok) {sub : FileTree N C} (h : d.find n = some (.dir sub)) :
    sub.Valid ok ∧ ok n := by
  induction d with
  | empty => cases h
  | file m c rest ih =>
    unfold find at h
    split_ifs at h with hm
    · cases h
    · exact ih hd.2.2 h
  | dir m s rest ih₁ ih₂ =>
    unfold find at h
    split_ifs at h with hm
    · obtain rfl := Node.dir.inj (Option.some.inj h)
      exact ⟨hd.2.2.1, hm ▸ hd.1⟩
    · exact ih₂ hd.2.2.2 h

/-- The files of a tree are what its paths lead to. -/
theorem mem_files (hd : d.Valid ok) : (p, c) ∈ d.files ↔ d.node p = some (.file c) := by
  induction p generalizing d with
  | nil => simp [files, node, nil_not_mem_nested]
  | cons n p ih =>
    have hown : (n :: p, c) ∈ d.ownFiles.map (fun f => ([f.1], f.2)) ↔
        p = [] ∧ (n, c) ∈ d.ownFiles := by
      simp only [List.mem_map, Prod.exists, Prod.mk.injEq, List.cons.injEq]
      constructor
      · rintro ⟨a, b, h, ⟨rfl, rfl⟩, rfl⟩
        exact ⟨rfl, h⟩
      · rintro ⟨rfl, h⟩
        exact ⟨n, c, h, ⟨rfl, rfl⟩, rfl⟩
    rw [files, List.mem_append, hown, mem_ownFiles hd, mem_nested hd, node]
    cases hf : d.find n with
    | none => simp
    | some x =>
      cases x with
      | file c' =>
        by_cases hp : p = [] <;> simp [hp]
      | dir sub =>
        simp [ih (hd.of_find hf).1]

theorem mem_files_iff (hd : d.Valid ok) : (p, c) ∈ d.files ↔ d.fileAt p = some c := by
  rw [mem_files hd, fileAt]
  split
  · next x h => simp [h]
  · next h => simpa using h c

theorem ok_of_node (hd : d.Valid ok) {x : Node N C} (h : d.node p = some x) : ∀ n ∈ p, ok n := by
  induction p generalizing d with
  | nil => simp
  | cons n p ih =>
    unfold node at h
    cases hf : d.find n with
    | none => simp [hf] at h
    | some y =>
      have hn : ok n := hd.ok_of_mem (mem_names_of_find hf)
      rw [hf] at h
      cases y with
      | file c' =>
        simp only at h
        split_ifs at h with hp
        simp [hp, hn]
      | dir sub => exact List.forall_mem_cons.2 ⟨hn, ih (hd.of_find hf).1 h⟩

theorem ok_of_mem_files (hd : d.Valid ok) (h : (p, c) ∈ d.files) : p ≠ [] ∧ ∀ n ∈ p, ok n := by
  rw [mem_files hd] at h
  refine ⟨?_, ok_of_node hd h⟩
  rintro rfl
  cases h

theorem mem_names_of_files (hd : d.Valid ok) (h : (n :: p, c) ∈ d.files) : n ∈ d.names := by
  rw [mem_files hd, node] at h
  cases hf : d.find n with
  | none => simp [hf] at h
  | some x => exact mem_names_of_find hf

theorem nodup_files (hd : d.Valid ok) : (d.files.map Prod.fst).Nodup := by
  induction d with
  | empty => simp [files, ownFiles, nested]
  | file n c rest ih =>
    obtain ⟨-, hn, hrest⟩ := hd
    refine List.nodup_cons.2 ⟨fun h => ?_, ih hrest⟩
    obtain ⟨⟨p, c'⟩, hf, rfl⟩ := List.mem_map.1 h
    exact hn (mem_names_of_files hrest hf)
  | dir n sub rest ih₁ ih₂ =>
    obtain ⟨-, hn, hsub, hrest⟩ := hd
    refine (((files_dir n sub rest).map Prod.fst).nodup_iff).2 ?_
    rw [List.map_append, List.map_map]
    refine List.Nodup.append ?_ (ih₂ hrest) ?_
    · have h := (ih₁ hsub).map (List.cons_injective (a := n))
      rwa [List.map_map] at h
    · intro q hq hq'
      obtain ⟨f, -, rfl⟩ := List.mem_map.1 hq
      obtain ⟨⟨p, c'⟩, hf, hp⟩ := List.mem_map.1 hq'
      obtain rfl : p = n :: f.1 := hp
      exact hn (mem_names_of_files hrest hf)

theorem isDir_nil (d : FileTree N C) : d.isDir [] = true := rfl

theorem fileAt_empty (p : List N) : (empty : FileTree N C).fileAt p = none := by
  cases p <;> rfl

theorem isDir_empty : (empty : FileTree N C).isDir p = true ↔ p = [] := by
  cases p with
  | nil => simp [isDir_nil]
  | cons n p => simp [isDir, node, find]

theorem fileAt_cons (n : N) (p : List N) (d : FileTree N C) : d.fileAt (n :: p) =
    match d.find n with
    | none => none
    | some (.file c) => if p = [] then some c else none
    | some (.dir sub) => sub.fileAt p := by
  unfold fileAt
  rw [node]
  cases d.find n with
  | none => rfl
  | some x =>
    cases x with
    | file c => by_cases hp : p = [] <;> simp [hp]
    | dir sub => rfl

theorem isDir_cons (n : N) (p : List N) (d : FileTree N C) : d.isDir (n :: p) =
    match d.find n with
    | some (.dir sub) => sub.isDir p
    | _ => false := by
  unfold isDir
  rw [node]
  cases d.find n with
  | none => rfl
  | some x =>
    cases x with
    | file c => by_cases hp : p = [] <;> simp [hp]
    | dir sub => rfl

theorem fileAt_append_of_file (h : d.fileAt p = some c) (hq : q ≠ []) :
    d.fileAt (p ++ q) = none := by
  induction p generalizing d with
  | nil => cases h
  | cons n p ih =>
    rw [List.cons_append, fileAt_cons]
    rw [fileAt_cons] at h
    cases hf : d.find n with
    | none => rfl
    | some x =>
      rw [hf] at h
      cases x with
      | file c' => simp [hq]
      | dir sub => exact ih h

theorem isDir_of_fileAt (h : d.fileAt (p ++ q) = some c) (hq : q ≠ []) : d.isDir p = true := by
  induction p generalizing d with
  | nil => rfl
  | cons n p ih =>
    rw [List.cons_append, fileAt_cons] at h
    rw [isDir_cons]
    cases hf : d.find n with
    | none => simp [hf] at h
    | some x =>
      rw [hf] at h
      cases x with
      | file c' => simp [hq] at h
      | dir sub => exact ih h

theorem node_append (p q : List N) (d : FileTree N C) {sub : FileTree N C}
    (h : d.node p = some (.dir sub)) : d.node (p ++ q) = sub.node q := by
  induction p generalizing d with
  | nil =>
    obtain rfl := Node.dir.inj (Option.some.inj h)
    rfl
  | cons n p ih =>
    rw [List.cons_append, node]
    rw [node] at h
    cases hf : d.find n with
    | none =>
      rw [hf] at h
      cases h
    | some x =>
      rw [hf] at h
      cases x with
      | file c =>
        by_cases hp : p = [] <;> simp [hp] at h
      | dir s => exact ih s h

theorem fileAt_append {sub : FileTree N C} (h : d.node p = some (.dir sub)) (q : List N) :
    d.fileAt (p ++ q) = sub.fileAt q := by
  rw [fileAt, node_append p q d h, fileAt]

theorem isDir_append {sub : FileTree N C} (h : d.node p = some (.dir sub)) (q : List N) :
    d.isDir (p ++ q) = sub.isDir q := by
  rw [isDir, node_append p q d h, isDir]

theorem isDir_iff : d.isDir p = true ↔ ∃ sub, d.node p = some (.dir sub) := by
  unfold isDir
  split
  · next sub h => simp [h]
  · next h => simpa using fun sub => h sub

theorem node_empty (hdir : d.isDir p = true) (hfile : ∀ q, q ≠ [] → d.fileAt (p ++ q) = none)
    (hsub : ∀ q, q ≠ [] → ¬ d.isDir (p ++ q) = true) : d.node p = some (.dir empty) := by
  obtain ⟨sub, hnode⟩ := isDir_iff.1 hdir
  cases sub with
  | empty => exact hnode
  | file n c rest =>
    have hnone := hfile [n] (by simp)
    rw [fileAt_append hnode, fileAt_cons] at hnone
    simp [find] at hnone
  | dir n sub rest =>
    apply absurd _ (hsub [n] (by simp))
    rw [isDir_append hnode, isDir_cons]
    simp [find, isDir_nil]

theorem isDir_of_prefix (h : d.isDir q = true) (hp : p <+: q) : d.isDir p = true := by
  obtain ⟨t, rfl⟩ := hp
  induction p generalizing d with
  | nil => rfl
  | cons n p ih =>
    rw [List.cons_append, isDir_cons] at h
    rw [isDir_cons]
    cases hf : d.find n with
    | none => simp [hf] at h
    | some x =>
      rw [hf] at h
      cases x with
      | file c => cases h
      | dir sub => exact ih h

theorem fileAt_of_isDir (h : d.isDir p = true) : d.fileAt p = none := by
  obtain ⟨sub, h⟩ := isDir_iff.1 h
  rw [fileAt, h]

theorem Valid.of_node (hd : d.Valid ok) {sub : FileTree N C} (h : d.node p = some (.dir sub)) :
    sub.Valid ok := by
  induction p generalizing d with
  | nil =>
    obtain rfl := Node.dir.inj (Option.some.inj h)
    exact hd
  | cons n p ih =>
    rw [node] at h
    cases hf : d.find n with
    | none =>
      rw [hf] at h
      cases h
    | some x =>
      rw [hf] at h
      cases x with
      | file c =>
        by_cases hp : p = [] <;> simp [hp] at h
      | dir s => exact ih (hd.of_find hf).1 h

theorem mem_walkNested {join : S → N → S} {top s : S} (hd : d.Valid ok) :
    s ∈ (d.walkNested join top).map Prod.fst ↔
      ∃ n q, s = (n :: q).foldl join top ∧ d.isDir (n :: q) = true := by
  induction d generalizing top with
  | empty => simp [walkNested, isDir_cons, find]
  | file m c rest ih =>
    have hrest : ∀ n q, (file m c rest).isDir (n :: q) = rest.isDir (n :: q) := by
      intro n q
      rw [isDir_cons, isDir_cons, find]
      split_ifs with hm
      · rw [← hm, find_eq_none_iff.2 hd.2.1]
      · rfl
    simp only [walkNested, ih hd.2.2, hrest]
  | dir m sub rest ih₁ ih₂ =>
    have hself : ∀ q, (dir m sub rest).isDir (m :: q) = sub.isDir q := fun q => by
      rw [isDir_cons, find, if_pos rfl]
    have hother : ∀ n q, m ≠ n → (dir m sub rest).isDir (n :: q) = rest.isDir (n :: q) :=
      fun n q hm => by
      rw [isDir_cons, isDir_cons, find, if_neg hm]
    rw [walkNested, List.map_append, List.map_cons, List.mem_append, List.mem_cons, ih₁ hd.2.2.1,
      ih₂ hd.2.2.2]
    constructor
    · rintro ((rfl | ⟨n, q, rfl, h⟩) | ⟨n, q, rfl, h⟩)
      · exact ⟨m, [], rfl, hself []⟩
      · exact ⟨m, n :: q, rfl, (hself _).trans h⟩
      · refine ⟨n, q, rfl, (hother n q ?_).trans h⟩
        rintro rfl
        rw [isDir_cons, find_eq_none_iff.2 hd.2.1] at h
        cases h
    · rintro ⟨n, q, rfl, h⟩
      by_cases hm : m = n
      · subst hm
        rw [hself] at h
        cases q with
        | nil => exact .inl (.inl rfl)
        | cons n' q => exact .inl (.inr ⟨n', q, rfl, h⟩)
      · exact .inr ⟨n, q, rfl, (hother n q hm).symm.trans h⟩

/-- A walk meets the directories below its top, and only these. -/
theorem mem_walk {join : S → N → S} {top s : S} (hd : d.Valid ok) :
    s ∈ (d.walk join top).map Prod.fst ↔ ∃ q : List N, s = q.foldl join top ∧ d.isDir q = true := by
  rw [walk, List.map_cons, List.mem_cons, mem_walkNested hd]
  constructor
  · rintro (rfl | ⟨n, q, h⟩)
    · exact ⟨[], rfl, isDir_nil d⟩
    · exact ⟨n :: q, h⟩
  · rintro ⟨q, h⟩
    cases q with
    | nil => exact .inl h.1
    | cons n q => exact .inr ⟨n, q, h⟩

end Lookup

end FileTree
end Accel.Data
