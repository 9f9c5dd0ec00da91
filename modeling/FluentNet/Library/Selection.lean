import Mathlib.Data.List.Sort
set_option autoImplicit false

/-!
Selection and insertion sort the same way: what is least, and leftmost of that, comes
first, and the others follow as if it had not been there.
-/

namespace Selection

variable {α : Type} {r : α → α → Prop} [DecidableRel r]

theorem insertionSort_least {pre post : List α} {a : α} (hpre : ∀ b ∈ pre, ¬r b a) (hpost : ∀ b ∈ post, r a b) :
    (pre ++ a :: post).insertionSort r = a :: (pre ++ post).insertionSort r := by
  induction pre with
  | nil => exact List.insertionSort_cons_of_forall_rel r hpost
  | cons b pre ih =>
    rw [List.cons_append,List.insertionSort_cons,ih (fun c hc => hpre c (List.mem_cons_of_mem _ hc)),
      List.orderedInsert_of_not_le r _ (hpre b List.mem_cons_self)]
    rfl

end Selection
