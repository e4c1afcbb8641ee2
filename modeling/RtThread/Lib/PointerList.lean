import RtThread.Lib.ByteMem
import Mathlib.Data.List.Nodup

/-!
# Linked lists in memory

Lists whose nodes are records in a byte memory. A node is named by its address; its link is the
four-byte word `off` bytes into the record, and zero ends the list.

A list that is searched through a pointer to the link, which is either the root of the list or the
link of a node, is split by it: the nodes up to the link, and those from the pointer in it on. A
store through the pointer replaces the second part.
-/

namespace ByteMem
open List

/-- From the pointer `p` on come the records of the list, and then the pointer `q`. -/
def SegAt (m : ByteMem) (off : Nat) : Nat → List Nat → Nat → Prop
  | p, [], q => p = q
  | p, a :: l, q => p = a ∧ a ≠ 0 ∧ SegAt m off (m.readLE 4 (a + off)) l q

/-- The records from the pointer `p` on are those of the list, and then there is no more. -/
abbrev ListAt (m : ByteMem) (off p : Nat) (l : List Nat) : Prop := SegAt m off p l 0

variable {m m' : ByteMem} {off p q r a n v : Nat} {l l' : List Nat}

theorem readLE_writeLE_word (m : ByteMem) (a : Nat) (hv : v < 2 ^ 32) :
    readLE (writeLE m 4 a v) 4 a = v := by
  rw [readLE_writeLE_same, Nat.mod_eq_of_lt (by simpa using hv)]

theorem readLE_word_lt (m : ByteMem) (a : Nat) : m.readLE 4 a < 2 ^ 32 := by
  simpa using readLE_lt m 4 a

@[simp] theorem segAt_nil : SegAt m off p [] q ↔ p = q := Iff.rfl

@[simp] theorem segAt_cons :
    SegAt m off p (a :: l) q ↔ p = a ∧ a ≠ 0 ∧ SegAt m off (m.readLE 4 (a + off)) l q := Iff.rfl

theorem segAt_append : SegAt m off p (l ++ l') q ↔ ∃ r, SegAt m off p l r ∧ SegAt m off r l' q := by
  induction l generalizing p with
  | nil => simp
  | cons a l ih => simp [ih, and_assoc]

namespace SegAt

section
variable (h : SegAt m off p l q)
include h

theorem eq_or_mem : p = q ∨ p ∈ l := by
  cases l with
  | nil => exact .inl h
  | cons a l =>
    rw [h.1]
    exact .inr mem_cons_self

theorem congr_links
    (heq : ∀ a ∈ l, m'.readLE 4 (a + off) = m.readLE 4 (a + off)) : SegAt m' off p l q := by
  induction l generalizing p with
  | nil => exact h
  | cons a l ih =>
    refine ⟨h.1, h.2.1, ?_⟩
    rw [heq a mem_cons_self]
    exact ih h.2.2 fun b hb => heq b (mem_cons_of_mem a hb)

theorem congr (heq : ∀ a ∈ l, AgreeOn m' m (a + off) 4) : SegAt m' off p l q :=
  h.congr_links fun a ha => readLE_congr (heq a ha)

theorem writeLE (hdisjoint : ∀ b ∈ l, b + off + 4 ≤ a ∨ a + n ≤ b + off) :
    SegAt (m.writeLE n a v) off p l q :=
  h.congr fun b hb => writeLE_agreeOn m (hdisjoint b hb)

theorem push (ha : a ≠ 0) (hp : p < 2 ^ 32) (hdisjoint : ∀ b ∈ l, b + 4 ≤ a ∨ a + 4 ≤ b) :
    SegAt (m.writeLE 4 (a + off) p) off a (a :: l) q := by
  refine ⟨rfl, ha, ?_⟩
  rw [readLE_writeLE_word m _ hp]
  refine h.writeLE fun b hb => ?_
  have := hdisjoint b hb
  omega

end

theorem relink (h : SegAt m off p (l ++ [a]) q) (hr : r < 2 ^ 32)
    (hdisjoint : ∀ b ∈ l, b + 4 ≤ a ∨ a + 4 ≤ b) :
    SegAt (m.writeLE 4 (a + off) r) off p (l ++ [a]) r := by
  obtain ⟨p', hl, hpa, ha, -⟩ := segAt_append.mp h
  refine segAt_append.mpr ⟨p', hl.writeLE fun b hb => ?_, hpa, ha, ?_⟩
  · have := hdisjoint b hb
    omega
  · exact readLE_writeLE_word m _ hr

end SegAt

theorem ListAt.unique (h : ListAt m off p l) (h' : ListAt m off p l') : l = l' := by
  induction l generalizing p l' with
  | nil =>
    cases l' with
    | nil => rfl
    | cons b l' => exact absurd (h'.1.symm.trans h) h'.2.1
  | cons a l ih =>
    cases l' with
    | nil => exact absurd (h.1.symm.trans h') h.2.1
    | cons b l' =>
      obtain rfl : a = b := h.1.symm.trans h'.1
      rw [ih h.2.2 h'.2.2]

theorem ListAt.eq_headD (h : ListAt m off p l) : p = l.headD 0 := by
  cases l with
  | nil => exact h
  | cons a l => exact h.1

theorem listAt_range {node : Nat → Nat} {i : Nat} (hne : ∀ j, i ≤ j → j < i + n → node j ≠ 0)
    (hlink : ∀ j, i ≤ j → j + 1 < i + n → m.readLE 4 (node j + off) = node (j + 1))
    (hlast : ∀ j, j + 1 = i + n → m.readLE 4 (node j + off) = 0) (hn : n ≠ 0) :
    ListAt m off (node i) ((List.range' i n).map node) := by
  induction n generalizing i with
  | zero => exact absurd rfl hn
  | succ n ih =>
    rw [List.range'_succ, map_cons]
    refine ⟨rfl, hne i (Nat.le_refl i) (by omega), ?_⟩
    cases n with
    | zero => exact hlast i rfl
    | succ n =>
      rw [hlink i (Nat.le_refl i) (by omega)]
      refine ih (fun j hj hj' => hne j (by omega) (by omega))
        (fun j hj hj' => hlink j (by omega) (by omega)) (fun j hj => hlast j (by omega))
        (Nat.succ_ne_zero n)

/-- What a pointer to a link points to: the root of the list, or the link of a node. -/
def linkValue (m : ByteMem) (off root : Nat) : Option Nat → Nat
  | none => root
  | some b => m.readLE 4 (b + off)

/-- A store through a pointer to a link: the memory and the root after it. -/
def linkStore (m : ByteMem) (off root : Nat) (link : Option Nat) (v : Nat) : ByteMem × Nat :=
  match link with
  | none => (m, v)
  | some b => (m.writeLE 4 (b + off) v, root)

section Links
variable {root : Nat}

theorem SegAt.linkValue (h : SegAt m off root l q) : m.linkValue off root l.getLast? = q := by
  rcases eq_nil_or_concat' l with rfl | ⟨l, a, rfl⟩
  · exact h
  · rw [List.getLast?_concat]
    obtain ⟨p, -, -, -, hq⟩ := segAt_append.mp h
    exact hq

theorem SegAt.linkStore (h : SegAt m off root l q) (hr : r < 2 ^ 32)
    (hapart : l.Pairwise fun a b => a + 4 ≤ b ∨ b + 4 ≤ a) :
    SegAt (m.linkStore off root l.getLast? r).1 off (m.linkStore off root l.getLast? r).2 l r := by
  rcases eq_nil_or_concat' l with rfl | ⟨l, a, rfl⟩
  · exact rfl
  · rw [List.getLast?_concat]
    refine h.relink hr fun b hb => ?_
    exact (pairwise_append.mp hapart).2.2 b hb a mem_cons_self

theorem linkStore_agreeOn (hdisjoint : ∀ b ∈ l, a + n ≤ b + off ∨ b + off + 4 ≤ a) :
    AgreeOn (m.linkStore off root l.getLast? v).1 m a n := by
  rcases eq_nil_or_concat' l with rfl | ⟨l, b, rfl⟩
  · exact fun _ _ _ => rfl
  · rw [List.getLast?_concat]
    exact writeLE_agreeOn m (hdisjoint b (by simp))

end Links
end ByteMem
