import Mathlib.Data.List.DropRight
import RtThread.Lib.RingBuffer

/-!
# Ring buffers that forget

A ring without a count has to keep one cell free, since equal indices mean that it is empty. A
`LossyRing` is such a ring: an item that would fill it pushes the oldest one out, so that the last
`n - 1` items are kept.
-/

namespace List
variable {α : Type*}

theorem rtake_of_length_le {l : List α} {m : Nat} (h : l.length ≤ m) : l.rtake m = l := by
  rw [rtake, Nat.sub_eq_zero_of_le h, drop_zero]

theorem rtake_append_of_le {l : List α} {m : Nat} (l' : List α) (h : m ≤ l.length) :
    (l' ++ l).rtake m = l.rtake m := by
  rw [rtake, rtake, length_append, drop_append]
  have hfront : l'.drop (l'.length + l.length - m) = [] := drop_eq_nil_of_le (by omega)
  rw [hfront, nil_append]
  congr 1
  omega

theorem rtake_rtake_append (l l' : List α) (m : Nat) :
    (l.rtake m ++ l').rtake m = (l ++ l').rtake m := by
  obtain h | h := Nat.le_total l.length m
  · rw [rtake_of_length_le h]
  · have hsplit : l.take (l.length - m) ++ l.rtake m = l := take_append_drop _ l
    have hlength : (l.rtake m).length = m := by
      rw [rtake, length_drop]
      omega
    conv_rhs => rw [← hsplit, append_assoc]
    refine (rtake_append_of_le _ ?_).symm
    rw [length_append, hlength]
    exact Nat.le_add_right m _

end List

/-- A ring of `n` cells in which one cell is free. -/
structure LossyRing (α : Type*) (n : Nat) extends RingBuffer α n where
  count_lt : count < n

namespace LossyRing
open List
open Nat
open RingBuffer (advance advance_eq_mod)
variable {α : Type*} {n : Nat}

@[simps!] def empty (cell : Nat → α) (hn : 0 < n) : LossyRing α n :=
  ⟨RingBuffer.empty cell hn, hn⟩

variable (r : LossyRing α n)
variable (x : α) (xs : List α)

/-- A new item, which may take the place of the oldest one. -/
def put : LossyRing α n :=
  if h : r.count + 1 < n then ⟨r.push x r.count_lt, h⟩
  else ⟨(r.push x r.count_lt).pop (succ_pos _), r.count_lt⟩

@[simp] theorem put_cell : (r.put x).cell = Function.update r.cell r.last x := by
  rw [put]
  split <;> rfl

@[simp] theorem put_last : (r.put x).last = (r.last + 1) % n := by
  rw [← advance_eq_mod r.last_lt, put]
  split <;> rfl

@[simp] theorem put_count : (r.put x).count = min (r.count + 1) (n - 1) := by
  have := r.count_lt
  rw [put]
  split
  · change r.count + 1 = _
    omega
  · change r.count + 1 - 1 = _
    omega

theorem put_first : (r.put x).first = if r.count + 1 < n then r.first else (r.first + 1) % n := by
  rw [← advance_eq_mod r.first_lt, put]
  split <;> rfl

theorem items_put : (r.put x).items = (r.items ++ [x]).rtake (n - 1) := by
  have hpush := r.items_push x r.count_lt
  have := r.count_lt
  rw [put]
  split
  · rw [rtake_of_length_le (by simp; omega)]
    exact hpush
  · have hpop := (r.push x r.count_lt).items_pop (succ_pos _)
    rw [hpush] at hpop
    rw [hpop, rtake]
    have hfull : (r.items ++ [x]).length - (n - 1) = 1 := by
      simp
      omega
    rw [← hpop, hfull, hpop]
    rfl

/-- New items, one after the other. -/
def putAll : LossyRing α n := xs.foldl put r

/-- The cells after `xs` have been written from the index `i` on, going around at `n`. -/
def writeAround (n : Nat) (cell : Nat → α) (i : Nat) : List α → Nat → α
  | [] => cell
  | x :: xs => writeAround n (Function.update cell i x) ((i + 1) % n) xs

theorem putAll_cell : (r.putAll xs).cell = writeAround n r.cell r.last xs := by
  induction xs generalizing r with
  | nil => rfl
  | cons x xs ih =>
    have hstep : (r.putAll (x :: xs)).cell = ((r.put x).putAll xs).cell := rfl
    rw [hstep, ih, put_cell, put_last]
    rfl

theorem putAll_last : (r.putAll xs).last = (r.last + xs.length) % n := by
  induction xs generalizing r with
  | nil => exact (mod_eq_of_lt r.last_lt).symm
  | cons x xs ih =>
    have hstep : (r.putAll (x :: xs)).last = ((r.put x).putAll xs).last := rfl
    rw [hstep, ih, put_last, mod_add_mod, length_cons]
    congr 1
    omega

theorem putAll_count : (r.putAll xs).count = min (r.count + xs.length) (n - 1) := by
  induction xs generalizing r with
  | nil =>
    have := r.count_lt
    change r.count = min (r.count + 0) (n - 1)
    omega
  | cons x xs ih =>
    have hstep : (r.putAll (x :: xs)).count = ((r.put x).putAll xs).count := rfl
    rw [hstep, ih, put_count, length_cons]
    omega

theorem items_putAll : (r.putAll xs).items = (r.items ++ xs).rtake (n - 1) := by
  induction xs generalizing r with
  | nil =>
    have := r.count_lt
    rw [append_nil, rtake_of_length_le (by rw [r.length_items]; omega)]
    rfl
  | cons x xs ih =>
    have hstep : (r.putAll (x :: xs)).items = ((r.put x).putAll xs).items := rfl
    rw [hstep, ih, items_put, rtake_rtake_append, append_assoc, singleton_append]

/-- The oldest items are taken out. -/
def skip (k : Nat) (hk : k ≤ r.count) : LossyRing α n where
  cell := r.cell
  first := (r.first + k) % n
  last := r.last
  count := r.count - k
  first_lt := mod_lt _ (by have := r.count_lt; omega)
  count_le := (sub_le _ _).trans r.count_le
  last_eq := by rw [Nat.mod_add_mod, Nat.add_assoc, Nat.add_sub_cancel' hk, r.last_eq]
  count_lt := (sub_le _ _).trans_lt r.count_lt

theorem items_skip (k : Nat) (hk : k ≤ r.count) : (r.skip k hk).items = r.items.drop k := by
  refine ext_getElem (by simp [skip]) fun i _ _ => ?_
  simp [RingBuffer.items, skip, add_assoc]

end LossyRing
