import Mathlib

/-! Answers that arrive in pages: a truncated page carries a token whose request yields the
rest. How a listing is split is the server's choice. -/

namespace Accel.Data

inductive Pages (α : Type) where
  | last (items : List α)
  | more (items : List α) (rest : Pages α)

namespace Pages
variable {α β : Type}

def toList : Pages α → List α
  | last items => items
  | more items rest => items ++ rest.toList

/-- The client loop: treat every item of a page, then ask for the next page while truncated. -/
def fold (f : β → α → β) : Pages α → β → β
  | last items, b => items.foldl f b
  | more items rest, b => rest.fold f (items.foldl f b)

theorem fold_eq (f : β → α → β) (p : Pages α) (b : β) : p.fold f b = p.toList.foldl f b := by
  induction p generalizing b with
  | last items => rfl
  | more items rest ih => rw [fold, ih, toList, List.foldl_append]

/-- `out.extend(page)` over all pages. -/
def collect (p : Pages α) : List α := p.fold (fun out x => out ++ [x]) []

@[simp] theorem collect_eq (p : Pages α) : p.collect = p.toList := by
  have h : ∀ (xs acc : List α), xs.foldl (fun out x => out ++ [x]) acc = acc ++ xs := by
    intro xs
    induction xs with
    | nil => simp
    | cons x xs ih => intro acc; simp [ih]
  rw [collect, fold_eq, h, List.nil_append]

end Pages
end Accel.Data
