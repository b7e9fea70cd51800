import Mathlib

/-! A list cut into consecutive slices of a fixed length. -/

namespace Accel.Data
variable {α : Type}

/-- `[xs[i:i + n] for i in range(0, len(xs), n)]` -/
def slices (n : ℕ) (xs : List α) : List (List α) :=
  (List.range ((xs.length + n - 1) / n)).map fun j => (xs.drop (n * j)).take n

theorem flatten_slices_range (n k : ℕ) (xs : List α) :
    ((List.range k).map fun j => (xs.drop (n * j)).take n).flatten = xs.take (n * k) := by
  induction k with
  | zero => simp
  | succ k ih =>
    rw [List.range_succ, List.map_append, List.flatten_append, ih]
    simp [Nat.mul_succ, List.take_add]

theorem flatten_slices {n : ℕ} (hn : 0 < n) (xs : List α) : (slices n xs).flatten = xs := by
  rw [slices, flatten_slices_range]
  refine List.take_of_length_le ?_
  have := Nat.div_add_mod (xs.length + n - 1) n
  have := Nat.mod_lt (xs.length + n - 1) hn
  omega

theorem length_le_of_mem_slices {n : ℕ} {xs ys : List α} (h : ys ∈ slices n xs) :
    ys.length ≤ n := by
  obtain ⟨j, -, rfl⟩ := List.mem_map.1 h
  exact List.length_take_le ..

theorem mem_of_mem_slices {n : ℕ} {xs ys : List α} {x : α} (h : ys ∈ slices n xs) (hx : x ∈ ys) :
    x ∈ xs := by
  obtain ⟨j, -, rfl⟩ := List.mem_map.1 h
  exact List.mem_of_mem_drop (List.mem_of_mem_take hx)

end Accel.Data
