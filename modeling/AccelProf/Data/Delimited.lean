import Mathlib

/-! Flat key spaces read as trees: words over an alphabet with a delimiter, listed one level at a
time by their common prefixes. -/

namespace Accel.Data
variable {α : Type} [DecidableEq α] (d : α)

/-- The word up to and including its first delimiter. -/
def firstField : List α → Option (List α)
  | [] => none
  | x :: xs => if x = d then some [d] else (firstField xs).map (x :: ·)

/-- The prefix of `key` that a listing below `pre` rolls it up to. -/
def commonPrefix (pre key : List α) : Option (List α) :=
  if pre <+: key then (firstField d (key.drop pre.length)).map (pre ++ ·) else none

def commonPrefixes (keys : List (List α)) (pre : List α) : List (List α) :=
  (keys.filterMap (commonPrefix d pre)).dedup

def twoLevel (keys : List (List α)) : List (List α) :=
  (commonPrefixes d keys []).flatMap (commonPrefixes d keys)

/-- Exactly two delimiters, one of them at the end. -/
def IsTwoField (p : List α) : Prop := ∃ a b, d ∉ a ∧ d ∉ b ∧ p = a ++ d :: (b ++ [d])

variable {d}

theorem firstField_eq_some {l f : List α} :
    firstField d l = some f ↔ ∃ a rest, d ∉ a ∧ f = a ++ [d] ∧ l = a ++ d :: rest := by
  induction l generalizing f with
  | nil => simp [firstField]
  | cons x xs ih =>
    rw [firstField]
    split_ifs with h
    · subst h
      simp only [Option.some.injEq]
      constructor
      · rintro rfl
        exact ⟨[], xs, by simp⟩
      · rintro ⟨a, rest, ha, rfl, hl⟩
        cases a with
        | nil => rfl
        | cons y ys => simp_all
    · simp only [Option.map_eq_some_iff, ih]
      constructor
      · rintro ⟨g, ⟨a, rest, ha, rfl, rfl⟩, rfl⟩
        exact ⟨x :: a, rest, by simp [ha, Ne.symm h], by simp, by simp⟩
      · rintro ⟨a, rest, ha, rfl, hl⟩
        cases a with
        | nil => simp_all
        | cons y ys =>
          simp only [List.cons_append, List.cons.injEq] at hl
          obtain ⟨rfl, rfl⟩ := hl
          exact ⟨ys ++ [d], ⟨ys, rest, by simp_all, rfl, rfl⟩, rfl⟩

theorem commonPrefix_eq_some {pre key p : List α} :
    commonPrefix d pre key = some p ↔
      ∃ a rest, d ∉ a ∧ p = pre ++ (a ++ [d]) ∧ key = pre ++ (a ++ d :: rest) := by
  rw [commonPrefix]
  split_ifs with h
  · obtain ⟨t, rfl⟩ := h
    simp only [List.drop_left, Option.map_eq_some_iff, firstField_eq_some,
      List.append_cancel_left_eq]
    constructor
    · rintro ⟨f, ⟨a, rest, ha, rfl, rfl⟩, rfl⟩
      exact ⟨a, rest, ha, rfl, rfl⟩
    · rintro ⟨a, rest, ha, rfl, rfl⟩
      exact ⟨_, ⟨a, rest, ha, rfl, rfl⟩, rfl⟩
  · simp only [false_iff]
    rintro ⟨a, rest, -, -, rfl⟩
    exact h ⟨_, rfl⟩

theorem mem_commonPrefixes {keys : List (List α)} {pre p : List α} :
    p ∈ commonPrefixes d keys pre ↔
    ∃ a, d ∉ a ∧ p = pre ++ (a ++ [d]) ∧ ∃ key ∈ keys, p <+: key := by
  simp only [commonPrefixes, List.mem_dedup, List.mem_filterMap, commonPrefix_eq_some]
  constructor
  · rintro ⟨key, hk, a, rest, ha, rfl, rfl⟩
    exact ⟨a, ha, rfl, _, hk, rest, by simp⟩
  · rintro ⟨a, ha, rfl, key, hk, rest, rfl⟩
    exact ⟨_, hk, a, rest, ha, rfl, by simp⟩

theorem nodup_commonPrefixes (keys : List (List α)) (pre : List α) :
    (commonPrefixes d keys pre).Nodup := List.nodup_dedup _

/-- A word has at most one first field. -/
theorem field_unique {a b s t : List α} (ha : d ∉ a) (hb : d ∉ b)
    (h : a ++ d :: s = b ++ d :: t) : a = b ∧ s = t := by
  have h₁ : firstField d (a ++ d :: s) = some (a ++ [d]) :=
    firstField_eq_some.2 ⟨a, s, ha, rfl, rfl⟩
  have h₂ : firstField d (a ++ d :: s) = some (b ++ [d]) :=
    firstField_eq_some.2 ⟨b, t, hb, rfl, h⟩
  obtain rfl : a = b := List.append_cancel_right (Option.some.inj (h₁.symm.trans h₂))
  simpa using h

/-- Two levels of listing give the two-field prefixes of the keys. -/
theorem mem_twoLevel {keys : List (List α)} {p : List α} :
    p ∈ twoLevel d keys ↔ IsTwoField d p ∧ ∃ key ∈ keys, p <+: key := by
  simp only [twoLevel, List.mem_flatMap, mem_commonPrefixes, List.nil_append]
  constructor
  · rintro ⟨_, ⟨a, ha, rfl, -⟩, b, hb, rfl, hk⟩
    exact ⟨⟨a, b, ha, hb, by simp⟩, hk⟩
  · rintro ⟨⟨a, b, ha, hb, rfl⟩, key, hk, hp⟩
    have ha' : a ++ [d] <+: a ++ d :: (b ++ [d]) := ⟨b ++ [d], by simp⟩
    exact ⟨a ++ [d], ⟨a, ha, rfl, key, hk, ha'.trans hp⟩, b, hb, by simp, key, hk, hp⟩

theorem nodup_twoLevel (keys : List (List α)) : (twoLevel d keys).Nodup := by
  refine List.nodup_flatMap.2 ⟨fun _ _ => nodup_commonPrefixes _ _, ?_⟩
  refine (nodup_commonPrefixes keys []).imp_of_mem fun {p q} hp hq hne => ?_
  obtain ⟨a, ha, rfl, -⟩ := mem_commonPrefixes.1 hp
  obtain ⟨b, hb, rfl, -⟩ := mem_commonPrefixes.1 hq
  intro x hx hy
  obtain ⟨s, -, rfl, -⟩ := mem_commonPrefixes.1 hx
  obtain ⟨t, -, h, -⟩ := mem_commonPrefixes.1 hy
  have h' : a ++ d :: (s ++ [d]) = b ++ d :: (t ++ [d]) := by simpa using h
  exact hne (by rw [(field_unique ha hb h').1])

theorem twoField_unique {p q key : List α} (hp : IsTwoField d p) (hq : IsTwoField d q)
    (hpk : p <+: key) (hqk : q <+: key) : p = q := by
  obtain ⟨a, b, ha, hb, rfl⟩ := hp
  obtain ⟨a', b', ha', hb', rfl⟩ := hq
  obtain ⟨s, rfl⟩ := hpk
  obtain ⟨t, h⟩ := hqk
  obtain ⟨rfl, h₁⟩ := field_unique ha' ha (by simpa using h)
  obtain ⟨rfl, -⟩ := field_unique hb' hb (by simpa using h₁)
  rfl

end Accel.Data
