import Mathlib.Data.List.Basic
import Mathlib.Data.List.Induction

/-!
# Strings in buffers

A buffer is a list of bytes of fixed length; an access outside of it has no result. A C string is
what stands in front of the first zero byte. `Reads buf i s` says that the string `s` stands at
position `i`.
-/

/-- A byte, the `char` of C. -/
abbrev Byte := BitVec 8

/-- The byte of an ASCII character. -/
def Char.byte (c : Char) : Byte := BitVec.ofNat 8 c.toNat

namespace Buffer
open List

/-- `buf[i] = c`. -/
def store (buf : List Byte) (i : Nat) (c : Byte) : Option (List Byte) :=
  if i < buf.length then some (buf.set i c) else none

/-- The string that the buffer holds. -/
def cstr (buf : List Byte) : List Byte := buf.takeWhile (· ≠ 0)

/-- The string `s` stands at position `i`. -/
def Reads (buf : List Byte) (i : Nat) (s : List Byte) : Prop :=
  0 ∉ s ∧ ∃ tail, buf.drop i = s ++ 0 :: tail

/-- `strncmp` of strings, which are given without their zero bytes. -/
def strncmp : (s s' : List Byte) → (n : Nat) → Int
  | _, _, 0 => 0
  | [], [], _ + 1 => 0
  | [], c' :: _, _ + 1 => -c'.toNat
  | c :: _, [], _ + 1 => c.toNat
  | c :: s, c' :: s', n + 1 => if c = c' then strncmp s s' n else c.toNat - c'.toNat

/-- `n` bytes, from the first one on. -/
def copyForward (buf : List Byte) (dest src : Nat) : (n : Nat) → List Byte
  | 0 => buf
  | n + 1 => copyForward (buf.set dest (buf.getD src 0)) (dest + 1) (src + 1) n

/-- `n` bytes, from the last one on. -/
def copyBackward (buf : List Byte) (dest src : Nat) : (n : Nat) → List Byte
  | 0 => buf
  | n + 1 => copyBackward (buf.set (dest + n) (buf.getD (src + n) 0)) dest src n

variable {buf s s' : List Byte} {i j n : Nat} {c : Byte}

theorem strncmp_eq_zero_iff (hs : 0 ∉ s) (hs' : 0 ∉ s') :
    strncmp s s' n = 0 ↔ s.take n = s'.take n := by
  have hne : ∀ {c : Byte}, c ≠ 0 → c.toNat ≠ 0 := fun hc h => hc (BitVec.eq_of_toNat_eq h)
  induction s, s', n using strncmp.induct with
  | case1 | case2 => simp [strncmp]
  | case3 c' s' n =>
    have hc' := hne fun h : c' = 0 => hs' (by simp [h])
    simp only [strncmp, take_nil, take_succ_cons, reduceCtorEq, iff_false]
    omega
  | case4 c s n =>
    have hc := hne fun h : c = 0 => hs (by simp [h])
    simp only [strncmp, take_nil, take_succ_cons, reduceCtorEq, iff_false]
    omega
  | case5 s c s' n ih =>
    have hrest := ih (fun h => hs (mem_cons_of_mem c h)) (fun h => hs' (mem_cons_of_mem c h))
    simp only [strncmp, if_true, take_succ_cons, hrest, cons_inj_right]
  | case6 c s c' s' n hdiff =>
    have hnat : c.toNat ≠ c'.toNat := fun h => hdiff (BitVec.eq_of_toNat_eq h)
    rw [strncmp, if_neg hdiff]
    simp only [take_succ_cons, cons.injEq, hdiff, false_and, iff_false]
    omega

theorem store_of_lt (h : i < buf.length) : store buf i c = some (buf.set i c) := if_pos h

theorem Reads.lt (h : Reads buf i s) : i + s.length < buf.length := by
  obtain ⟨-, tail, htail⟩ := h
  have hlen := congrArg length htail
  simp only [length_drop, length_append, length_cons] at hlen
  omega

theorem Reads.getElem?_cons (h : Reads buf i (c :: s)) : buf[i]? = some c := by
  obtain ⟨-, tail, htail⟩ := h
  rw [← Nat.add_zero i, ← getElem?_drop, htail]
  rfl

theorem Reads.getElem?_nil (h : Reads buf i []) : buf[i]? = some 0 := by
  obtain ⟨-, tail, htail⟩ := h
  rw [← Nat.add_zero i, ← getElem?_drop, htail]
  rfl

theorem Reads.append (h : Reads buf i (s ++ s')) : Reads buf (i + s.length) s' := by
  obtain ⟨hzero, tail, htail⟩ := h
  refine ⟨fun hmem => hzero (mem_append_right s hmem), tail, ?_⟩
  rw [← drop_drop, htail, append_assoc, drop_left]

theorem Reads.tail (h : Reads buf i (c :: s)) : Reads buf (i + 1) s :=
  Reads.append (s := [c]) h

theorem Reads.ne_zero (h : Reads buf i (c :: s)) : c ≠ 0 := fun hc => h.1 (by simp [hc])

theorem Reads.set (h : Reads buf i s) (hj : j < i) : Reads (buf.set j c) i s := by
  obtain ⟨hzero, tail, htail⟩ := h
  exact ⟨hzero, tail, by rw [drop_set, if_pos hj, htail]⟩

theorem take_succ_set {α : Type*} {buf : List α} {c : α} (hj : j < buf.length) :
    (buf.set j c).take (j + 1) = buf.take j ++ [c] := by
  have hlen : j < (buf.set j c).length := by simpa using hj
  rw [take_succ_eq_append_getElem hlen, getElem_set_self, take_set, set_eq_of_length_le]
  rw [length_take]
  omega

theorem take_of_take_append (h : buf.take i = s ++ s') : buf.take s.length = s := by
  have hlen := congrArg length h
  have hle := length_take_le i buf
  rw [length_append] at hlen
  have hshort := congrArg (take s.length) h
  rwa [take_take, Nat.min_eq_left (by omega), take_left] at hshort

theorem getElem?_of_take (h : buf.take (s.length + 1) = s ++ [c]) : buf[s.length]? = some c := by
  have hget := congrArg (·[s.length]?) h
  simpa using hget

theorem cstr_of_take (hzero : 0 ∉ buf.take j) (hj : buf[j]? = some 0) : cstr buf = buf.take j := by
  obtain ⟨hlt, hget⟩ := List.getElem?_eq_some_iff.mp hj
  have htail : (buf.drop j).takeWhile (· ≠ 0) = [] := by
    rw [drop_eq_getElem_cons hlt, hget, takeWhile_cons_of_neg (by simp)]
  have hhead : ∀ b ∈ buf.take j, (decide (b ≠ 0)) = true := fun b hb =>
    decide_eq_true fun h0 => hzero (h0 ▸ hb)
  rw [cstr]
  conv_lhs => rw [← take_append_drop j buf]
  rw [takeWhile_append_of_pos hhead, htail, append_nil]

theorem copyForward_down (s s' tail : List Byte) (c : Byte) :
    copyForward (s ++ c :: s' ++ tail) s.length (s.length + 1) s'.length =
      s ++ s' ++ (c :: s').getLast (cons_ne_nil c s') :: tail := by
  induction s' generalizing s c with
  | nil => simp [copyForward]
  | cons d s' ih =>
    have hbuf : (s ++ c :: d :: s' ++ tail).set s.length
        ((s ++ c :: d :: s' ++ tail).getD (s.length + 1) 0) = (s ++ [d]) ++ d :: s' ++ tail := by
      simp
    rw [length_cons, copyForward, hbuf]
    have hnext := ih (s ++ [d]) d
    rw [length_append, length_singleton] at hnext
    rw [hnext]
    simp

theorem copyBackward_up (s s' tail : List Byte) (c : Byte) :
    copyBackward (s ++ s' ++ c :: tail) (s.length + 1) s.length s'.length =
      s ++ (s' ++ [c]).head (by simp) :: s' ++ tail := by
  induction s' using reverseRecOn generalizing c tail with
  | nil => simp [copyBackward]
  | append_singleton s' d ih =>
    have hsplit : s ++ (s' ++ [d]) ++ c :: tail = (s ++ s') ++ d :: c :: tail := by simp
    have hsrc : s.length + s'.length = (s ++ s').length := (length_append ..).symm
    have hdest : s.length + 1 + s'.length = (s ++ s').length + 1 := by rw [← hsrc]; omega
    have hbuf : ∀ t : List Byte, (t ++ d :: c :: tail).set (t.length + 1)
        ((t ++ d :: c :: tail).getD t.length 0) = t ++ d :: d :: tail := by
      intro t
      simp
    have hhead : ((s' ++ [d]) ++ [c]).head (by simp) = (s' ++ [d]).head (by simp) :=
      head_append_of_ne_nil (by simp)
    rw [length_append, length_singleton, copyBackward, hsplit, hdest, hsrc, hbuf, ih, hhead]
    simp

end Buffer
