import Mathlib.Data.Nat.ModEq

/-!
# Ring buffers

A bounded queue in an array: the cells from `first` on are in use, `last` is the cell that the next
item goes to, and both indices go around. In a `RingBuffer` the two indices and the count agree;
`push` and `pop` act on the list of items like the operations of a queue.
-/

/-- A ring of `n` cells. -/
structure RingBuffer (α : Type*) (n : Nat) where
  cell : Nat → α
  first : Nat
  last : Nat
  count : Nat
  first_lt : first < n
  count_le : count ≤ n
  last_eq : last = (first + count) % n

namespace RingBuffer
open Nat
open List
variable {α : Type*} {n : Nat}

/-- The index behind `i`. -/
def advance (n i : Nat) : Nat := if n ≤ i + 1 then 0 else i + 1

theorem mod_eq_ite {i : Nat} (hi : i < 2 * n := by omega) : i % n = if i < n then i else i - n := by
  split
  · rename_i h
    exact mod_eq_of_lt h
  · rw [mod_eq_sub_mod (by omega), mod_eq_of_lt (by omega)]

theorem advance_eq_mod {i : Nat} (hi : i < n) : advance n i = (i + 1) % n := by
  rw [advance]
  split
  · have heq : i + 1 = n := by omega
    rw [heq, mod_self]
  · rw [mod_eq_of_lt (by omega)]

theorem toNat_advance {w : Nat} {size i : BitVec w} (h : i.toNat < size.toNat) :
    (if size ≤ i + 1 then 0 else i + 1).toNat = advance size.toNat i.toNat := by
  have hsize := size.isLt
  have hone : (1 : BitVec w).toNat = 1 :=
    mod_eq_of_lt (lt_of_le_of_lt (one_le_of_lt h) hsize)
  have hsum : (i + 1).toNat = i.toNat + 1 := by
    rw [BitVec.toNat_add, hone, mod_eq_of_lt (by omega)]
  simp only [advance, BitVec.le_def, hsum]
  split
  · rfl
  · exact hsum

theorem advance_lt {i : Nat} (hi : i < n) : advance n i < n := by
  rw [advance_eq_mod hi]
  exact mod_lt _ (by omega)

variable (r : RingBuffer α n)

/-- The items, from the oldest to the newest. -/
def items : List α := (List.range r.count).map fun i => r.cell ((r.first + i) % n)

@[simp] theorem length_items : r.items.length = r.count := by simp [items]

theorem last_lt : r.last < n := by
  rw [r.last_eq]
  exact mod_lt _ (by have := r.first_lt; omega)

theorem index_inj {i j : Nat} (hi : i < n) (hj : j < n)
    (heq : (r.first + i) % n = (r.first + j) % n) : i = j := by
  have hmod : i ≡ j [MOD n] := ModEq.add_left_cancel' r.first heq
  rwa [ModEq, mod_eq_of_lt hi, mod_eq_of_lt hj] at hmod

@[simps] def empty (cell : Nat → α) (hn : 0 < n) : RingBuffer α n where
  cell := cell
  first := 0
  last := 0
  count := 0
  first_lt := hn
  count_le := zero_le n
  last_eq := by simp

@[simps -fullyApplied] def push (x : α) (hroom : r.count < n) : RingBuffer α n where
  cell := Function.update r.cell r.last x
  first := r.first
  last := advance n r.last
  count := r.count + 1
  first_lt := r.first_lt
  count_le := hroom
  last_eq := by rw [advance_eq_mod r.last_lt, r.last_eq, mod_add_mod, add_assoc]

@[simps -fullyApplied] def pop (hitem : 0 < r.count) : RingBuffer α n where
  cell := r.cell
  first := advance n r.first
  last := r.last
  count := r.count - 1
  first_lt := advance_lt r.first_lt
  count_le := (sub_le _ _).trans r.count_le
  last_eq := by
    rw [advance_eq_mod r.first_lt, Nat.mod_add_mod, Nat.add_assoc, Nat.add_sub_cancel' hitem]
    exact r.last_eq

theorem items_push (x : α) (hroom : r.count < n) : (r.push x hroom).items = r.items ++ [x] := by
  simp only [items, push_count, push_cell, push_first, range_succ, map_append, map_singleton]
  congr 1
  · refine map_congr_left fun i hi => Function.update_of_ne ?_ _ _
    rw [mem_range] at hi
    rw [r.last_eq]
    intro heq
    have := r.index_inj (hi.trans hroom) hroom heq
    omega
  · rw [r.last_eq, Function.update_self]

theorem items_pop (hitem : 0 < r.count) : r.items = r.cell r.first :: (r.pop hitem).items := by
  obtain ⟨c, hc⟩ := Nat.exists_eq_add_of_lt hitem
  have hcount : r.count = c + 1 := by omega
  simp only [items, pop_count, pop_cell, pop_first, hcount, range_succ_eq_map, map_cons,
    map_map, add_zero, mod_eq_of_lt r.first_lt]
  congr 1
  refine map_congr_left fun i _ => ?_
  rw [advance_eq_mod r.first_lt, mod_add_mod, add_assoc, add_comm 1]
  rfl

end RingBuffer
