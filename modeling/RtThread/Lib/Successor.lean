import Mathlib.Data.List.Nodup

/-!
# The element behind another one

A walk along a list by its links, while elements are taken out behind the walk.
-/

namespace List
variable {α : Type*} [DecidableEq α] {l r : List α} {a b : α}

def nextOf (l : List α) (a : α) : Option α := (l.dropWhile (· ≠ a)).tail.head?

theorem nextOf_append_cons (ha : a ∉ l) : (l ++ a :: r).nextOf a = r.head? := by
  have hl : ∀ b ∈ l, decide (b ≠ a) = true := by
    intro b hb
    exact decide_eq_true (ne_of_mem_of_not_mem hb ha)
  rw [nextOf, dropWhile_append_of_pos hl, dropWhile_cons_of_neg (by simp), tail_cons]

end List
