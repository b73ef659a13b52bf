import Mathlib.Data.Nat.Notation

/-!
# Tables with a default

What a table holds at an index, when it answers with a default outside its bounds, after one of
its entries was changed or a new one was put behind the last.
-/

namespace DexLift

variable {α : Type} (table : Array α) (i j : Nat) (x d : α)

theorem getD_modify (change : α → α) : (table.modify i change).getD j d =
    if j = i ∧ i < table.size then change (table.getD j d) else table.getD j d := by
  simp only [Array.getD_eq_getD_getElem?, Array.getElem?_modify]
  by_cases same : i = j
  · subst same
    by_cases inside : i < table.size <;> simp [inside]
  · simp [same, Ne.symm same]

theorem getD_set : (table.setIfInBounds i x).getD j d =
    if j = i ∧ i < table.size then x else table.getD j d := by
  simp only [Array.getD_eq_getD_getElem?, Array.getElem?_setIfInBounds]
  by_cases same : i = j
  · subst same
    by_cases inside : i < table.size <;> simp [inside]
  · simp [same, Ne.symm same]

theorem getD_push : (table.push x).getD j d =
    if j = table.size then x else table.getD j d := by
  simp only [Array.getD_eq_getD_getElem?, Array.getElem?_push]
  split <;> rfl

theorem getD_replicate (count : Nat) : (Array.replicate count x).getD j x = x := by
  simp only [Array.getD_eq_getD_getElem?, Array.getElem?_replicate]
  split <;> rfl

end DexLift
