/-! Stable sorting by insertion. -/
namespace Blackboard.Sorting

variable {α : Type}

def insertBy (le : α → α → Bool) (a : α) : List α → List α
  | [] => [a]
  | b :: l => if le a b then a :: b :: l else b :: insertBy le a l

def sortBy (le : α → α → Bool) (l : List α) : List α := l.foldr (insertBy le) []

theorem perm_insertBy (le : α → α → Bool) (a : α) (l : List α) : (insertBy le a l).Perm (a :: l) := by
  induction l with
  | nil => exact .refl _
  | cons b l ih =>
    rw [insertBy]
    split
    · exact .refl _
    · exact (ih.cons b).trans (.swap a b l)

theorem perm_sortBy (le : α → α → Bool) (l : List α) : (sortBy le l).Perm l := by
  induction l with
  | nil => exact .refl _
  | cons a l ih => exact (perm_insertBy le a _).trans (ih.cons a)

end Blackboard.Sorting
