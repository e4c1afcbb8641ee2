import Mathlib.Tactic.Ring

/-!
# Byte-addressed memory

A flat memory of bytes with little-endian reads and writes of `n`-byte words, block fill and block
copy. The lemmas say what a read sees after a write: the written word at its own address, the old
word at a disjoint address.
-/

/-- A memory holds one byte at every address. -/
abbrev ByteMem := Nat → BitVec 8

namespace ByteMem
open Nat
open Function

/-- The little-endian word of `n` bytes at address `a`. -/
def readLE (m : ByteMem) : Nat → Nat → Nat
  | 0, _ => 0
  | n + 1, a => (m a).toNat + 256 * readLE m n (a + 1)

/-- Stores the low `n` bytes of `v` at address `a`, little-endian. -/
def writeLE (m : ByteMem) : Nat → Nat → Nat → ByteMem
  | 0, _, _ => m
  | n + 1, a, v => update (writeLE m n (a + 1) (v / 256)) a (BitVec.ofNat 8 v)

/-- `n` bytes from address `a` on are set to `c`. -/
def fill (m : ByteMem) (a n : Nat) (c : BitVec 8) : ByteMem :=
  fun x => if a ≤ x ∧ x < a + n then c else m x

/-- `n` bytes are copied from `src` to `dst`; the two ranges are taken not to overlap. -/
def copy (m : ByteMem) (dst src n : Nat) : ByteMem :=
  fun x => if dst ≤ x ∧ x < dst + n then m (src + (x - dst)) else m x

/-- Two memories agree on the `n` bytes from `a` on. -/
def AgreeOn (m m' : ByteMem) (a n : Nat) : Prop :=
  ∀ x, a ≤ x → x < a + n → m x = m' x

theorem AgreeOn.mono {m m' : ByteMem} {a n b k : Nat} (h : AgreeOn m m' a n)
    (hlo : a ≤ b) (hhi : b + k ≤ a + n) : AgreeOn m m' b k :=
  fun x hx hx' => h x (by omega) (by omega)

theorem readLE_congr {m m' : ByteMem} :
    ∀ {n a : Nat}, AgreeOn m m' a n → readLE m n a = readLE m' n a
  | 0, _, _ => rfl
  | n + 1, a, h => by
    have hhead : m a = m' a := h a (le_refl a) (by omega)
    have htail : readLE m n (a + 1) = readLE m' n (a + 1) :=
      readLE_congr (h.mono (by omega) (by omega))
    rw [readLE, readLE, hhead, htail]

variable (m : ByteMem)

theorem readLE_lt : ∀ n a : Nat, readLE m n a < 256 ^ n
  | 0, _ => by simp [readLE]
  | n + 1, a => by
    have htail := readLE_lt n (a + 1)
    rw [readLE, pow_succ]
    omega

theorem writeLE_apply_of_disjoint :
    ∀ (n a v x : Nat), x < a ∨ a + n ≤ x → writeLE m n a v x = m x
  | 0, _, _, _, _ => rfl
  | n + 1, a, v, x, h => by
    have hne : x ≠ a := by omega
    rw [writeLE, update_of_ne hne]
    exact writeLE_apply_of_disjoint n (a + 1) (v / 256) x (by omega)

theorem writeLE_agreeOn {n a v b k : Nat} (h : b + k ≤ a ∨ a + n ≤ b) :
    AgreeOn (writeLE m n a v) m b k :=
  fun x hx hx' => writeLE_apply_of_disjoint m n a v x (by omega)

theorem readLE_writeLE_of_disjoint {n a v k b : Nat}
    (h : b + k ≤ a ∨ a + n ≤ b) : readLE (writeLE m n a v) k b = readLE m k b :=
  readLE_congr (writeLE_agreeOn m h)

theorem readLE_writeLE_same :
    ∀ n a v : Nat, readLE (writeLE m n a v) n a = v % 256 ^ n
  | 0, _, v => by simp [readLE, mod_one]
  | n + 1, a, v => by
    -- the head byte is the updated cell; the tail is read past it
    have htail : readLE (writeLE m (n + 1) a v) n (a + 1) = v / 256 % 256 ^ n := by
      rw [← readLE_writeLE_same n (a + 1) (v / 256)]
      apply readLE_congr
      intro x hx _
      exact update_of_ne (by omega) _ _
    have hhead : (writeLE m (n + 1) a v a).toNat = v % 256 := by
      simp [writeLE]
    rw [readLE, hhead, htail, pow_succ', mod_mul]

theorem update_agreeOn {a b k : Nat} (c : BitVec 8) (h : b + k ≤ a ∨ a < b) :
    AgreeOn (update m a c) m b k :=
  fun x hx hx' => update_of_ne (by omega) _ _

theorem readLE_fill_zero {a n : Nat} :
    ∀ {k b : Nat}, a ≤ b → b + k ≤ a + n → readLE (fill m a n 0) k b = 0
  | 0, _, _, _ => rfl
  | k + 1, b, hlo, hhi => by
    have hbyte : fill m a n 0 b = 0 := by rw [fill, if_pos (by omega)]
    rw [readLE, hbyte, readLE_fill_zero (by omega) (by omega)]
    rfl

@[simp] theorem fill_zero (a : Nat) (c : BitVec 8) : fill m a 0 c = m := by
  funext x
  rw [fill, if_neg (by omega)]

theorem update_eq_fill (a : Nat) (c : BitVec 8) : update m a c = fill m a 1 c := by
  funext x
  rw [update_apply, fill]
  by_cases hx : x = a
  · rw [if_pos hx, if_pos (by omega)]
  · rw [if_neg hx, if_neg (by omega)]

theorem fill_fill (a n k : Nat) (c : BitVec 8) :
    fill (fill m a n c) (a + n) k c = fill m a (n + k) c := by
  funext x
  simp only [fill]
  by_cases hlow : a ≤ x ∧ x < a + n
  · rw [if_neg (by omega), if_pos hlow, if_pos (by omega)]
  · by_cases hhigh : a + n ≤ x ∧ x < a + n + k
    · rw [if_pos hhigh, if_pos (by omega)]
    · rw [if_neg hhigh, if_neg hlow, if_neg (by omega)]

@[simp] theorem copy_zero (dst src : Nat) : copy m dst src 0 = m := by
  funext x
  rw [copy, if_neg (by omega)]

theorem update_eq_copy (dst src : Nat) : update m dst (m src) = copy m dst src 1 := by
  funext x
  rw [update_apply, copy]
  by_cases hx : x = dst
  · rw [if_pos hx, if_pos (by omega), hx, Nat.sub_self, Nat.add_zero]
  · rw [if_neg hx, if_neg (by omega)]

/-- A copy that goes on behind the first one, which must not have touched what is still to be
read. -/
theorem copy_copy {dst src n k : Nat} (h : dst ≤ src ∨ src + n + k ≤ dst) :
    copy (copy m dst src n) (dst + n) (src + n) k = copy m dst src (n + k) := by
  funext x
  simp only [copy]
  by_cases hlow : dst ≤ x ∧ x < dst + n
  · rw [if_neg (by omega), if_pos hlow, if_pos (by omega)]
  · by_cases hhigh : dst + n ≤ x ∧ x < dst + n + k
    · rw [if_pos hhigh, if_neg (by omega), if_pos (by omega)]
      congr 1
      omega
    · rw [if_neg hhigh, if_neg hlow, if_neg (by omega)]

theorem ofNat_readLE_div :
    ∀ (n a i : Nat), i < n → BitVec.ofNat 8 (readLE m n a / 256 ^ i) = m (a + i)
  | 0, _, _, h => absurd h (not_lt_zero _)
  | n + 1, a, i, h => by
    cases i with
    | zero =>
      refine BitVec.eq_of_toNat_eq ?_
      rw [readLE, Nat.pow_zero, Nat.div_one, BitVec.toNat_ofNat, Nat.add_zero a]
      omega
    | succ i =>
      have hdiv : ((m a).toNat + 256 * readLE m n (a + 1)) / 256 = readLE m n (a + 1) := by omega
      rw [readLE, Nat.pow_succ', ← Nat.div_div_eq_div_mul, hdiv,
        ofNat_readLE_div n (a + 1) i (by omega), add_right_comm, add_assoc]

theorem writeLE_apply :
    ∀ (n a v x : Nat), a ≤ x → x < a + n → writeLE m n a v x = BitVec.ofNat 8 (v / 256 ^ (x - a))
  | 0, a, v, x, hlo, hhi => by omega
  | n + 1, a, v, x, hlo, hhi => by
    rw [writeLE, update_apply]
    by_cases hx : x = a
    · rw [if_pos hx, hx, Nat.sub_self, Nat.pow_zero, Nat.div_one]
    · have hsub : x - a = x - (a + 1) + 1 := by omega
      rw [if_neg hx, writeLE_apply n (a + 1) (v / 256) x (by omega) (by omega),
        Nat.div_div_eq_div_mul, hsub, Nat.pow_succ']

theorem writeLE_eq_fill {n v : Nat} {c : BitVec 8}
    (h : ∀ i < n, BitVec.ofNat 8 (v / 256 ^ i) = c) (a : Nat) : writeLE m n a v = fill m a n c := by
  funext x
  rw [fill]
  by_cases hx : a ≤ x ∧ x < a + n
  · rw [if_pos hx, writeLE_apply m n a v x hx.1 hx.2, h _ (by omega)]
  · rw [if_neg hx, writeLE_apply_of_disjoint m n a v x (by omega)]

theorem writeLE_readLE (n dst src : Nat) :
    writeLE m n dst (readLE m n src) = copy m dst src n := by
  funext x
  rw [copy]
  by_cases hx : dst ≤ x ∧ x < dst + n
  · rw [if_pos hx, writeLE_apply m n dst _ x hx.1 hx.2, ofNat_readLE_div m n src _ (by omega)]
  · rw [if_neg hx, writeLE_apply_of_disjoint m n dst _ x (by omega)]

/-- The bytes `bs` are written from `a` on. -/
def store (m : ByteMem) (a : Nat) (bs : List (BitVec 8)) : ByteMem :=
  fun x => if a ≤ x then bs[x - a]?.getD (m x) else m x

@[simp] theorem store_nil (a : Nat) : store m a [] = m := by
  funext x
  simp [store]

theorem store_append_singleton (a : Nat) (bs : List (BitVec 8)) (c : BitVec 8) :
    store m a (bs ++ [c]) = update (store m a bs) (a + bs.length) c := by
  funext x
  rw [update_apply, store, store]
  by_cases hx : x = a + bs.length
  · subst hx
    simp
  · rw [if_neg hx]
    by_cases hlo : a ≤ x
    · rw [if_pos hlo, if_pos hlo]
      by_cases hlt : x - a < bs.length
      · rw [List.getElem?_append_left hlt]
      · rw [List.getElem?_eq_none (by simp; omega), List.getElem?_eq_none (by omega)]
    · rw [if_neg hlo, if_neg hlo]

variable {bs : List (BitVec 8)}

/-- Only the `n` bytes from `a` on are changed. -/
def Within (a n : Nat) (m m' : ByteMem) : Prop :=
  ∀ x, x < a ∨ a + n ≤ x → m' x = m x

namespace Within
variable {a n b k v : Nat} {m m' m'' : ByteMem}

theorem refl (a n : Nat) (m : ByteMem) : Within a n m m := fun _ _ => rfl

theorem trans (h : Within a n m m') (h' : Within a n m' m'') : Within a n m m'' :=
  fun x hx => (h' x hx).trans (h x hx)

theorem mono (h : Within a n m m') (hlo : b ≤ a) (hhi : a + n ≤ b + k) : Within b k m m' :=
  fun x hx => h x (by omega)

theorem writeLE (m : ByteMem) (hlo : b ≤ a) (hhi : a + n ≤ b + k) :
    Within b k m (m.writeLE n a v) :=
  fun x hx => writeLE_apply_of_disjoint m n a v x (by omega)

theorem fill (m : ByteMem) (a n : Nat) (c : BitVec 8) : Within a n m (m.fill a n c) :=
  fun x hx => if_neg (by omega)

theorem agreeOn (h : Within a n m m') (hdisjoint : b + k ≤ a ∨ a + n ≤ b) : AgreeOn m' m b k :=
  fun x hx hx' => h x (by omega)

end Within
end ByteMem
