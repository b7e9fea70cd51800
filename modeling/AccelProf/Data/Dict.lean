import AccelProf.Data.Fallible

/-! Dictionaries in the order of insertion: an assignment to a key that is there keeps its place. -/

namespace Accel.Data

variable {κ ν β ε : Type} [BEq κ] [LawfulBEq κ]

/-- `items` with the value of `k` replaced, or with a new item at the end. -/
def assign (k : κ) (v : ν) : List (κ × ν) → List (κ × ν)
  | [] => [(k, v)]
  | e :: es => if e.1 == k then (k, v) :: es else e :: assign k v es

theorem mem_keys_assign {k k' : κ} {v : ν} {items : List (κ × ν)} :
    k' ∈ (assign k v items).map Prod.fst ↔ k' = k ∨ k' ∈ items.map Prod.fst := by
  induction items with
  | nil => simp [assign]
  | cons e es ih =>
    unfold assign
    split_ifs with he
    · simp [beq_iff_eq.1 he]
    · rw [List.map_cons, List.mem_cons, ih, List.map_cons, List.mem_cons]
      exact or_left_comm

theorem nodup_assign {k : κ} {v : ν} {items : List (κ × ν)} (h : (items.map Prod.fst).Nodup) :
    ((assign k v items).map Prod.fst).Nodup := by
  induction items with
  | nil => simp [assign]
  | cons e es ih =>
    obtain ⟨he, hes⟩ := List.nodup_cons.1 h
    unfold assign
    split_ifs with hk
    · rw [List.map_cons, ← beq_iff_eq.1 hk]
      exact h
    · apply List.nodup_cons.2
      constructor
      · intro hmem
        exact (mem_keys_assign.1 hmem).elim (fun h => hk (beq_iff_eq.2 h)) he
      · exact ih hes

theorem lookup_assign_self {k : κ} {v : ν} {items : List (κ × ν)} :
    (assign k v items).lookup k = some v := by
  induction items with
  | nil => rw [assign, List.lookup_cons, beq_self_eq_true]
  | cons e es ih =>
    unfold assign
    split_ifs with he
    · rw [List.lookup_cons, beq_self_eq_true]
    · have hne : k ≠ e.1 := fun h => he (beq_iff_eq.2 h.symm)
      rw [List.lookup_cons, beq_false_of_ne hne, ih]

theorem lookup_assign_of_ne {k k' : κ} {v : ν} {items : List (κ × ν)} (h : k' ≠ k) :
    (assign k v items).lookup k' = items.lookup k' := by
  induction items with
  | nil =>
    rw [assign, List.lookup_cons, beq_false_of_ne h]
  | cons e es ih =>
    unfold assign
    split_ifs with he
    · have hne : k' ≠ e.1 := fun h' => h (h'.trans (beq_iff_eq.1 he))
      rw [List.lookup_cons, List.lookup_cons, beq_false_of_ne h, beq_false_of_ne hne]
    · rw [List.lookup_cons, List.lookup_cons, ih]

structure Dict (κ ν : Type) where
  items : List (κ × ν)
  nodup : (items.map Prod.fst).Nodup

namespace Dict

def empty : Dict κ ν := ⟨[], List.nodup_nil⟩

def get (d : Dict κ ν) (k : κ) : Option ν := d.items.lookup k

/-- `d[k] = v` -/
def set (d : Dict κ ν) (k : κ) (v : ν) : Dict κ ν := ⟨assign k v d.items, nodup_assign d.nodup⟩

/-- `d.setdefault(k, v)` -/
def setDefault (d : Dict κ ν) (k : κ) (v : ν) : Dict κ ν :=
  match d.get k with
  | some _ => d
  | none => d.set k v

/-- `d.update(items)` -/
def update (d : Dict κ ν) (items : List (κ × ν)) : Dict κ ν :=
  items.foldl (fun d e => d.set e.1 e.2) d

/-- `{k: v for k, v in d.items() if keep(k)}` -/
def filterKeys (d : Dict κ ν) (keep : κ → Bool) : Dict κ ν :=
  ⟨d.items.filter fun e => keep e.1, d.nodup.sublist (List.filter_sublist.map _)⟩

omit [LawfulBEq κ] in
@[simp] theorem get_empty (k : κ) : (empty : Dict κ ν).get k = none := rfl

theorem get_set_self (d : Dict κ ν) (k : κ) (v : ν) : (d.set k v).get k = some v :=
  lookup_assign_self

theorem get_set_of_ne (d : Dict κ ν) {k k' : κ} (v : ν) (h : k' ≠ k) :
    (d.set k v).get k' = d.get k' := lookup_assign_of_ne h

theorem get_setDefault_self (d : Dict κ ν) (k : κ) (v : ν) :
    (d.setDefault k v).get k = (d.get k).or (some v) := by
  unfold setDefault
  cases hg : d.get k with
  | none => exact d.get_set_self k v
  | some w => exact hg

theorem get_setDefault_of_ne (d : Dict κ ν) {k k' : κ} (v : ν) (h : k' ≠ k) :
    (d.setDefault k v).get k' = d.get k' := by
  unfold setDefault
  cases d.get k with
  | none => exact d.get_set_of_ne v h
  | some w => rfl

theorem get_eq_some {d : Dict κ ν} {k : κ} {v : ν} : d.get k = some v ↔ (k, v) ∈ d.items := by
  obtain ⟨items, hnd⟩ := d
  show items.lookup k = some v ↔ (k, v) ∈ items
  induction items with
  | nil => simp
  | cons e es ih =>
    obtain ⟨he, hes⟩ := List.nodup_cons.1 hnd
    rw [List.lookup_cons, List.mem_cons]
    by_cases hk : k = e.1
    · have hfree : (k, v) ∉ es := fun h => he (hk ▸ List.mem_map_of_mem h)
      rw [hk, beq_self_eq_true]
      constructor
      · intro h
        exact .inl (Prod.ext rfl (Option.some.inj h).symm)
      · intro h
        rcases h with h | h
        · exact congrArg some (congrArg Prod.snd h).symm
        · exact absurd (hk ▸ h) hfree
    · have hne : (k, v) ≠ e := fun h => hk (congrArg Prod.fst h)
      rw [beq_false_of_ne hk]
      exact (ih hes).trans (or_iff_right hne).symm

theorem get_eq_none {d : Dict κ ν} {k : κ} : d.get k = none ↔ k ∉ d.items.map Prod.fst := by
  constructor
  · intro h hk
    obtain ⟨e, he, rfl⟩ := List.mem_map.1 hk
    rw [get_eq_some.2 he] at h
    cases h
  · intro h
    cases hg : d.get k with
    | none => rfl
    | some v => exact absurd (List.mem_map_of_mem (get_eq_some.1 hg)) h

theorem get_filterKeys (d : Dict κ ν) (keep : κ → Bool) (k : κ) :
    (d.filterKeys keep).get k = if keep k then d.get k else none := by
  split_ifs with h
  · apply Option.ext
    intro v
    rw [get_eq_some, get_eq_some]
    exact ⟨fun hm => (List.mem_filter.1 hm).1, fun hm => List.mem_filter.2 ⟨hm, h⟩⟩
  · apply get_eq_none.2
    intro hk
    obtain ⟨e, he, rfl⟩ := List.mem_map.1 hk
    exact h (List.mem_filter.1 he).2

/-- An update with another dictionary: what that one has counts. -/
theorem get_update (d e : Dict κ ν) (k : κ) :
    (d.update e.items).get k = (e.get k).or (d.get k) := by
  obtain ⟨items, hnd⟩ := e
  show (items.foldl (fun d e => d.set e.1 e.2) d).get k = (items.lookup k).or (d.get k)
  induction items generalizing d with
  | nil => rfl
  | cons x xs ih =>
    obtain ⟨hx, hxs⟩ := List.nodup_cons.1 hnd
    rw [List.foldl_cons, ih _ hxs, List.lookup_cons]
    by_cases hk : k = x.1
    · have hnone : xs.lookup k = none := (get_eq_none (d := ⟨xs, hxs⟩)).2 (hk ▸ hx)
      rw [hnone, hk, beq_self_eq_true, get_set_self]
      rfl
    · rw [beq_false_of_ne hk, get_set_of_ne d x.2 hk]

section Collect

/-- A loop that assigns what `f` makes of the items' values, where it makes anything of them. -/
def collect (f : β → Except ε (Option ν)) (d : Dict κ ν) (items : List (κ × β)) :
    Except ε (Dict κ ν) :=
  items.foldlM (fun d e => (f e.2).map fun o => o.elim d (d.set e.1)) d

variable {f : β → Except ε (Option ν)} {d d' : Dict κ ν} {items : List (κ × β)}

/-- With the names all different, each holds what its own value came to. -/
theorem get_collect (hnd : (items.map Prod.fst).Nodup) (h : collect f d items = .ok d') (k : κ) :
    d'.get k = ((items.lookup k).bind fun b => (f b).toOption.join).or (d.get k) := by
  induction items generalizing d with
  | nil =>
    obtain rfl := Except.ok.inj h
    rfl
  | cons e es ih =>
    obtain ⟨he, hes⟩ := List.nodup_cons.1 hnd
    obtain ⟨d₁, h₁, hrest⟩ := foldlM_cons_ok.1 h
    obtain ⟨o, ho, rfl⟩ := except_map_ok.1 h₁
    rw [ih hes hrest, List.lookup_cons]
    by_cases hk : k = e.1
    · have hlast : es.lookup k = none := (get_eq_none (d := ⟨es, hes⟩)).2 (hk ▸ he)
      rw [hlast, hk, beq_self_eq_true]
      show (o.elim d (d.set e.1)).get e.1 = ((f e.2).toOption.join).or (d.get e.1)
      rw [ho]
      cases o with
      | none => rfl
      | some v => exact d.get_set_self e.1 v
    · have hsame : (o.elim d (d.set e.1)).get k = d.get k := by
        cases o with
        | none => rfl
        | some v => exact d.get_set_of_ne v hk
      rw [beq_false_of_ne hk, hsame]

theorem collect_error {x : ε} (h : collect f d items = .error x) :
    ∃ e ∈ items, f e.2 = .error x := by
  induction items generalizing d with
  | nil => cases h
  | cons e es ih =>
    cases he : f e.2 with
    | error y =>
      have hcollect : collect f d (e :: es) = .error y := by
        unfold collect
        rw [List.foldlM_cons, he]
        rfl
      obtain rfl := Except.error.inj (hcollect.symm.trans h)
      exact ⟨e, List.mem_cons_self, he⟩
    | ok o =>
      have hcollect : collect f d (e :: es) = collect f (o.elim d (d.set e.1)) es := by
        unfold collect
        rw [List.foldlM_cons, he]
        rfl
      rw [hcollect] at h
      obtain ⟨e', he', hx⟩ := ih h
      exact ⟨e', List.mem_cons_of_mem _ he', hx⟩

theorem collect_ok_values (h : collect f d items = .ok d') : ∀ e ∈ items, ∃ o, f e.2 = .ok o := by
  induction items generalizing d with
  | nil => exact fun e he => nomatch he
  | cons e es ih =>
    obtain ⟨d₁, h₁, hrest⟩ := foldlM_cons_ok.1 h
    obtain ⟨o, ho, -⟩ := except_map_ok.1 h₁
    exact List.forall_mem_cons.2 ⟨⟨o, ho⟩, ih hrest⟩

end Collect

end Dict
end Accel.Data
