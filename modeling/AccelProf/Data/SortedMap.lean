import Mathlib

/-! Finite maps listed in the order of their keys. -/

namespace Accel.Data

structure SortedMap (κ ν : Type) [LinearOrder κ] where
  entries : List (κ × ν)
  sorted : entries.Pairwise fun a b => a.1 < b.1

namespace SortedMap
variable {κ ν : Type} [LinearOrder κ]

def empty : SortedMap κ ν := ⟨[], .nil⟩

def keys (m : SortedMap κ ν) : List κ := m.entries.map Prod.fst

instance : Membership κ (SortedMap κ ν) := ⟨fun m k => k ∈ m.keys⟩

instance (k : κ) (m : SortedMap κ ν) : Decidable (k ∈ m) :=
  inferInstanceAs (Decidable (k ∈ m.keys))

theorem mem_def {k : κ} {m : SortedMap κ ν} : k ∈ m ↔ ∃ v, (k, v) ∈ m.entries := by
  change k ∈ m.entries.map Prod.fst ↔ _
  simp

theorem mem_of_entry {e : κ × ν} {m : SortedMap κ ν} (h : e ∈ m.entries) : e.1 ∈ m :=
  mem_def.2 ⟨e.2, h⟩

@[simp] theorem not_mem_empty (k : κ) : k ∉ (empty : SortedMap κ ν) := by
  simp [mem_def, empty]

theorem keys_nodup (m : SortedMap κ ν) : m.keys.Nodup :=
  List.pairwise_map.2 (m.sorted.imp fun h => h.ne)

def get (m : SortedMap κ ν) (k : κ) : Option ν := (m.entries.find? fun e => e.1 = k).map Prod.snd

theorem entry_unique {m : SortedMap κ ν} {e e' : κ × ν} (he : e ∈ m.entries) (he' : e' ∈ m.entries)
    (h : e.1 = e'.1) : e = e' := List.inj_on_of_nodup_map m.keys_nodup he he' h

theorem get_eq_some {m : SortedMap κ ν} {k : κ} {v : ν} :
    m.get k = some v ↔ (k, v) ∈ m.entries := by
  unfold get
  rw [Option.map_eq_some_iff]
  constructor
  · rintro ⟨⟨k', v'⟩, hf, rfl⟩
    obtain rfl : k' = k := by simpa using List.find?_some hf
    exact List.mem_of_find?_eq_some hf
  · intro h
    obtain ⟨e, he⟩ := Option.isSome_iff_exists.1
      (List.find?_isSome (p := fun e : κ × ν => decide (e.1 = k)).2 ⟨(k, v), h, by simp⟩)
    have hk : e.1 = k := by simpa using List.find?_some he
    exact ⟨e, he, congrArg Prod.snd (entry_unique (List.mem_of_find?_eq_some he) h hk)⟩

/-- The map without the keys that fail `keep`. -/
def restrict (m : SortedMap κ ν) (keep : κ → Bool) : SortedMap κ ν :=
  ⟨m.entries.filter fun e => keep e.1, m.sorted.filter _⟩

@[simp] theorem mem_restrict_entries {m : SortedMap κ ν} {keep : κ → Bool} {e : κ × ν} :
    e ∈ (m.restrict keep).entries ↔ e ∈ m.entries ∧ keep e.1 = true := List.mem_filter

@[simp] theorem mem_restrict {m : SortedMap κ ν} {keep : κ → Bool} {k : κ} :
    k ∈ m.restrict keep ↔ k ∈ m ∧ keep k = true := by
  simp [mem_def]

theorem restrict_restrict (m : SortedMap κ ν) (p q : κ → Bool) :
    (m.restrict p).restrict q = m.restrict fun k => p k && q k := by
  simp only [restrict, List.filter_filter, Bool.and_comm]

theorem restrict_eq_self {m : SortedMap κ ν} {keep : κ → Bool} (h : ∀ k ∈ m, keep k = true) :
    m.restrict keep = m := by
  have : m.entries.filter (fun e => keep e.1) = m.entries :=
    List.filter_eq_self.2 fun e he => h e.1 (mem_of_entry he)
  simp only [restrict, this]

theorem restrict_congr {m : SortedMap κ ν} {p q : κ → Bool} (h : ∀ k ∈ m, p k = q k) :
    m.restrict p = m.restrict q := by
  have : m.entries.filter (fun e => p e.1) = m.entries.filter fun e => q e.1 :=
    List.filter_congr fun e he => h e.1 (mem_of_entry he)
  simp only [restrict, this]

def insertEntry (k : κ) (v : ν) : List (κ × ν) → List (κ × ν)
  | [] => [(k, v)]
  | e :: es =>
    if k < e.1 then (k, v) :: e :: es
    else if k = e.1 then (k, v) :: es
    else e :: insertEntry k v es

theorem mem_insertEntry {k : κ} {v : ν} {es : List (κ × ν)}
    (hs : es.Pairwise fun a b => a.1 < b.1) {e : κ × ν} :
    e ∈ insertEntry k v es ↔ e = (k, v) ∨ e ∈ es ∧ e.1 ≠ k := by
  induction es with
  | nil => simp [insertEntry]
  | cons x xs ih =>
    have ⟨hx, hxs⟩ := List.pairwise_cons.1 hs
    rw [insertEntry]
    split_ifs with h₁ h₂
    · have hne : ∀ y ∈ x :: xs, y.1 ≠ k := by
        intro y hy
        rcases List.mem_cons.1 hy with rfl | hy
        · exact h₁.ne'
        · exact (h₁.trans (hx y hy)).ne'
      rw [List.mem_cons]
      exact or_congr_right ⟨fun h => ⟨h, hne e h⟩, And.left⟩
    · subst h₂
      have hne : ∀ y ∈ xs, y.1 ≠ x.1 := fun y hy => (hx y hy).ne'
      simp only [List.mem_cons]
      constructor
      · rintro (h | h)
        · exact .inl h
        · exact .inr ⟨.inr h, hne e h⟩
      · rintro (h | ⟨rfl | h, hn⟩)
        · exact .inl h
        · exact absurd rfl hn
        · exact .inr h
    · have hxk : x.1 ≠ k := fun h => h₂ h.symm
      simp only [List.mem_cons, ih hxs]
      constructor
      · rintro (rfl | h | ⟨h, hn⟩)
        · exact .inr ⟨.inl rfl, hxk⟩
        · exact .inl h
        · exact .inr ⟨.inr h, hn⟩
      · rintro (h | ⟨rfl | h, hn⟩)
        · exact .inr (.inl h)
        · exact .inl rfl
        · exact .inr (.inr ⟨h, hn⟩)

theorem insertEntry_sorted {k : κ} {v : ν} {es : List (κ × ν)}
    (hs : es.Pairwise fun a b => a.1 < b.1) :
    (insertEntry k v es).Pairwise fun a b => a.1 < b.1 := by
  induction es with
  | nil => simp [insertEntry]
  | cons x xs ih =>
    have ⟨hx, hxs⟩ := List.pairwise_cons.1 hs
    rw [insertEntry]
    split_ifs with h₁ h₂
    · refine List.pairwise_cons.2 ⟨fun y hy => ?_, hs⟩
      rcases List.mem_cons.1 hy with rfl | hy
      · exact h₁
      · exact h₁.trans (hx y hy)
    · subst h₂
      exact List.pairwise_cons.2 ⟨hx, hxs⟩
    · refine List.pairwise_cons.2 ⟨fun y hy => ?_, ih hxs⟩
      rcases (mem_insertEntry hxs).1 hy with rfl | ⟨hy, -⟩
      · exact lt_of_le_of_ne (not_lt.1 h₁) (Ne.symm h₂)
      · exact hx y hy

def put (m : SortedMap κ ν) (k : κ) (v : ν) : SortedMap κ ν :=
  ⟨insertEntry k v m.entries, insertEntry_sorted m.sorted⟩

@[simp] theorem mem_put_entries {m : SortedMap κ ν} {k : κ} {v : ν} {e : κ × ν} :
    e ∈ (m.put k v).entries ↔ e = (k, v) ∨ e ∈ m.entries ∧ e.1 ≠ k := mem_insertEntry m.sorted

@[simp] theorem mem_put {m : SortedMap κ ν} {k k' : κ} {v : ν} :
    k' ∈ m.put k v ↔ k' = k ∨ k' ∈ m := by
  simp only [mem_def, mem_put_entries, Prod.mk.injEq]
  constructor
  · rintro ⟨v', ⟨rfl, -⟩ | ⟨h, -⟩⟩
    · exact .inl rfl
    · exact .inr ⟨v', h⟩
  · rintro (rfl | ⟨v', h⟩)
    · exact ⟨v, .inl ⟨rfl, rfl⟩⟩
    · by_cases hk : k' = k
      · exact ⟨v, .inl ⟨hk, rfl⟩⟩
      · exact ⟨v', .inr ⟨h, hk⟩⟩

end SortedMap
end Accel.Data
