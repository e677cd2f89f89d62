/-
Merge sort with a comparison that may have effects.

The comparison is asked in a fixed order and may fail, so the sort works in any monad.  It is
stable: of two elements neither of which is less, the earlier one stays in front.
-/

namespace Lua.Sort

variable {m : Type → Type} [Monad m] {α : Type}

/-- Merges two sorted lists; an element of the second goes first only if it is less. -/
def merge (less : α → α → m Bool) (left right : List α) : m (List α) :=
  match left, right with
  | [], rs => pure rs
  | ls, [] => pure ls
  | l :: ls, r :: rs => do
    if ← less r l then
      return r :: (← merge less (l :: ls) rs)
    else
      return l :: (← merge less ls (r :: rs))
termination_by left.length + right.length

/-- Sorts a list: the two halves first, the front one before the other. -/
def mergeSort (less : α → α → m Bool) (xs : List α) : m (List α) :=
  match xs with
  | [] => pure []
  | [x] => pure [x]
  | x :: y :: rest => do
    let all := x :: y :: rest
    let half := all.length / 2
    let left ← mergeSort less (all.take half)
    let right ← mergeSort less (all.drop half)
    merge less left right
termination_by xs.length
decreasing_by
  all_goals simp only [List.length_take, List.length_drop, List.length_cons]
  all_goals omega

end Lua.Sort
