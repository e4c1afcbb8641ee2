import RtThread.Lib.CString
import Mathlib.Data.Int.Order.Basic
import Mathlib.Data.Nat.Find

/-!
# `rt_strncmp` and `rt_strcmp`

A string is given by its bytes without the zero byte at the end. `rt_strncmp` keeps the difference
of two bytes in a `signed char`, `rt_strcmp` in an `int`, so that the first one is right about bytes
that are not too far apart. `char` is unsigned.
-/

namespace RtThread
open BitVec
open List

/-- `*s`. -/
def deref (s : List Byte) : Byte := s.headD 0

/-- The loop of `rt_strncmp`, with `__res`. -/
def strncmpLoop (res : BitVec 8) (cs ct : List Byte) : ℕ → BitVec 8
  | 0 => res
  | count + 1 =>
    let res := BitVec.ofInt 8 ((deref cs).toNat - (deref ct).toNat)
    if res ≠ 0#8 ∨ deref cs = 0#8 then res else strncmpLoop res cs.tail ct.tail count

/-- `rt_strncmp` (`kservice.c:434-446`). -/
def rtStrncmp (cs ct : List Byte) (count : BitVec 32) : BitVec 32 :=
  (strncmpLoop 0#8 cs ct count.toNat).signExtend 32

/-- `rt_strcmp` (`kservice.c:457-463`). -/
def rtStrcmp : List Byte → List Byte → BitVec 32
  | [], ct => BitVec.ofInt 32 (0 - (deref ct).toNat)
  | c :: cs, ct =>
    if c ≠ 0#8 ∧ c = deref ct then rtStrcmp cs ct.tail
    else BitVec.ofInt 32 (c.toNat - (deref ct).toNat)

/-- The first bytes that are not the same, among the first `n`, are less than 128 apart. -/
def FirstNear (a b : List Byte) (n : ℕ) : Prop :=
  ∀ i < n, (∀ j < i, a[j]? = b[j]?) → a[i]? ≠ b[i]? →
    (a.getD i 0).toNat < (b.getD i 0).toNat + 128 ∧ (b.getD i 0).toNat < (a.getD i 0).toNat + 128

instance (a b : List Byte) (n : ℕ) : Decidable (FirstNear a b n) := Nat.decidableBallLT n _

/-- A difference of two bytes that is kept in a `signed char` has its sign, and the swapped one the
other sign, iff it fits. -/
theorem bmod_sign_iff {d : ℤ} (hlo : -256 < d) (hhi : d < 256) :
    ((d.bmod 256).sign = d.sign ∧ (d.bmod 256 < 0 ↔ 0 < (-d).bmod 256)) ↔ -128 < d ∧ d < 128 := by
  constructor
  · rintro ⟨hsign, hswap⟩
    by_contra hfar
    obtain hup | rfl | hdown : 128 ≤ d ∨ d = -128 ∨ d < -128 := by omega
    · have hwrap : d.bmod 256 = d - 256 := by
        rw [← Int.sub_bmod_right]
        exact Int.bmod_eq_of_le (by omega) (by omega)
      rw [hwrap, Int.sign_eq_neg_one_of_neg (by omega), Int.sign_eq_one_of_pos (by omega)] at hsign
      cases hsign
    · exact absurd (hswap.mp (by decide)) (by decide)
    · have hwrap : d.bmod 256 = d + 256 := by
        rw [← Int.add_bmod_right]
        exact Int.bmod_eq_of_le (by omega) (by omega)
      rw [hwrap, Int.sign_eq_neg_one_of_neg (a := d) (by omega),
        Int.sign_eq_one_of_pos (by omega)] at hsign
      cases hsign
  · rintro ⟨hlo', hhi'⟩
    rw [Int.bmod_eq_of_le (by omega) (by omega), Int.bmod_eq_of_le (by omega) (by omega)]
    exact ⟨rfl, by omega⟩

variable {a b : List Byte} {n : ℕ}

attribute [local simp] Buffer.strncmp

theorem strncmp_succ (ha : 0 ∉ a) (hb : 0 ∉ b) (n : ℕ) : Buffer.strncmp a b (n + 1) =
      if deref a = deref b then (if deref a = 0#8 then 0 else Buffer.strncmp a.tail b.tail n)
      else (deref a).toNat - (deref b).toNat := by
  cases a with
  | nil =>
    cases b with
    | nil => simp [deref]
    | cons c' b =>
      have hc : 0#8 ≠ c' := fun h => hb (by simp [← h])
      simp [deref, hc]
  | cons c a =>
    have hc : c ≠ 0#8 := fun h => ha (by simp [h])
    cases b with
    | nil | cons c' b => simp [deref, hc]

/-- The loop computes the difference of the first bytes that are not the same, as far as it fits
into `__res`. -/
theorem strncmpLoop_eq (ha : 0 ∉ a) (hb : 0 ∉ b) (n : ℕ) :
    strncmpLoop 0#8 a b n = BitVec.ofInt 8 (Buffer.strncmp a b n) := by
  induction n generalizing a b with
  | zero => simp [strncmpLoop]
  | succ n ih =>
    rw [strncmp_succ ha hb, strncmpLoop]
    by_cases hsame : deref a = deref b
    · have hzero : BitVec.ofInt 8 ((deref a).toNat - (deref b).toNat) = 0#8 := by simp [hsame]
      rw [if_pos hsame, hzero]
      by_cases hend : deref a = 0#8
      · rw [if_pos (.inr hend), if_pos hend]
        rfl
      · rw [if_neg (by simpa using hend), if_neg hend]
        exact ih (fun h => ha (mem_of_mem_tail h)) (fun h => hb (mem_of_mem_tail h))
    · have hne : BitVec.ofInt 8 ((deref a).toNat - (deref b).toNat) ≠ 0#8 := by
        bv_omega
      rw [if_neg hsame, if_pos (.inl hne)]

theorem strncmp_swap (a b : List Byte) (n : ℕ) : Buffer.strncmp b a n = -Buffer.strncmp a b n := by
  induction n generalizing a b with
  | zero => simp
  | succ n ih =>
    cases a with
    | nil => cases b <;> simp
    | cons c a =>
      cases b with
      | nil => simp
      | cons c' b =>
        simp only [Buffer.strncmp]
        by_cases hsame : c = c'
        · rw [if_pos hsame.symm, if_pos hsame, ih]
        · rw [if_neg (Ne.symm hsame), if_neg hsame]
          omega

theorem strncmp_of_first {i : ℕ} (hi : i < n) (hsame : ∀ j < i, a[j]? = b[j]?)
    (hdiff : a[i]? ≠ b[i]?) :
    Buffer.strncmp a b n = ((a.getD i 0).toNat : ℤ) - (b.getD i 0).toNat := by
  induction i generalizing a b n with
  | zero =>
    obtain ⟨n, rfl⟩ := Nat.exists_eq_succ_of_ne_zero (Nat.ne_of_gt hi)
    cases a with
    | nil =>
      cases b with
      | nil => exact absurd rfl hdiff
      | cons c' b => simp
    | cons c a =>
      cases b with
      | nil => simp
      | cons c' b =>
        have hne : c ≠ c' := fun h => hdiff (by simp [h])
        simp [hne]
  | succ i ih =>
    obtain ⟨n, rfl⟩ := Nat.exists_eq_succ_of_ne_zero (Nat.ne_zero_of_lt hi)
    have hfirst := hsame 0 (Nat.succ_pos i)
    cases a with
    | nil =>
      cases b with
      | nil => exact absurd rfl hdiff
      | cons c' b => simp at hfirst
    | cons c a =>
      cases b with
      | nil => simp at hfirst
      | cons c' b =>
        obtain rfl : c = c' := by simpa using hfirst
        have hrest := ih (n := n) (by omega)
          (fun j hj => by simpa using hsame (j + 1) (by omega)) (by simpa using hdiff)
        simpa using hrest

theorem rtStrcmp_eq (ha : 0 ∉ a) (hb : 0 ∉ b) (hn : a.length < n) :
    (rtStrcmp a b).toInt = Buffer.strncmp a b n := by
  have hfits : ∀ x y : Byte, (BitVec.ofInt 32 ((x.toNat : ℤ) - y.toNat)).toInt =
      (x.toNat : ℤ) - y.toNat := by
    intro x y
    rw [toInt_ofInt]
    exact Int.bmod_eq_of_le (by omega) (by omega)
  induction a generalizing b n with
  | nil =>
    obtain ⟨n, rfl⟩ := Nat.exists_eq_succ_of_ne_zero (Nat.ne_of_gt hn)
    have h0 := hfits 0#8 (deref b)
    rw [rtStrcmp]
    refine h0.trans ?_
    cases b <;> simp [deref]
  | cons c a ih =>
    obtain ⟨n, rfl⟩ := Nat.exists_eq_succ_of_ne_zero (Nat.ne_zero_of_lt hn)
    have hc : c ≠ 0#8 := fun h => ha (by simp [h])
    rw [strncmp_succ ha hb, rtStrcmp]
    simp only [deref, headD_cons, hc, ne_eq, not_false_eq_true, true_and, if_false, tail_cons]
    split
    · exact ih (fun h => ha (mem_cons_of_mem c h)) (fun h => hb (mem_of_mem_tail h))
        (by simpa using hn)
    · exact hfits c (b.headD 0)

theorem rtStrncmp_eq (ha : 0 ∉ a) (hb : 0 ∉ b) (count : BitVec 32) :
    (rtStrncmp a b count).toInt = (Buffer.strncmp a b count.toNat).bmod 256 := by
  rw [rtStrncmp, toInt_signExtend_of_le (by decide), strncmpLoop_eq ha hb, toInt_ofInt]

theorem strncmp_eq_zero_iff_getElem? (ha : 0 ∉ a) (hb : 0 ∉ b) :
    Buffer.strncmp a b n = 0 ↔ ∀ i < n, a[i]? = b[i]? := by
  rw [Buffer.strncmp_eq_zero_iff ha hb]
  refine ⟨fun htake i hi => ?_, fun hall => ext_getElem? fun i => ?_⟩
  · have hget := congrArg (·[i]?) htake
    simpa [List.getElem?_take, hi] using hget
  · rw [List.getElem?_take, List.getElem?_take]
    split
    · exact hall i ‹_›
    · rfl

theorem firstNear_iff (ha : 0 ∉ a) (hb : 0 ∉ b) :
    FirstNear a b n ↔ -128 < Buffer.strncmp a b n ∧ Buffer.strncmp a b n < 128 := by
  constructor
  · intro hnear
    by_cases hall : ∀ i < n, a[i]? = b[i]?
    · rw [(strncmp_eq_zero_iff_getElem? ha hb).mpr hall]
      decide
    · obtain ⟨i, ⟨hi, hdiff⟩, hfirst⟩ : ∃ i, (i < n ∧ a[i]? ≠ b[i]?) ∧
          ∀ j < i, ¬ (j < n ∧ a[j]? ≠ b[j]?) := by
        have hex : ∃ i, i < n ∧ a[i]? ≠ b[i]? := by simpa using hall
        exact ⟨Nat.find hex, Nat.find_spec hex, fun j hj => Nat.find_min hex hj⟩
      have hsame : ∀ j < i, a[j]? = b[j]? := fun j hj =>
        not_not.mp fun hne => hfirst j hj ⟨by omega, hne⟩
      have := hnear i hi hsame hdiff
      rw [strncmp_of_first hi hsame hdiff]
      omega
  · intro hfits i hi hsame hdiff
    rw [strncmp_of_first hi hsame hdiff] at hfits
    omega

/-- The sign of `rt_strncmp` is the sign of the difference of the first bytes that are not the same,
among the first `count`, the arguments can be swapped, and it agrees with `rt_strcmp` if all bytes
are compared: all of this holds exactly if these bytes are less than 128 apart. -/
theorem rtStrncmp_orders (a b : List Byte) (count : BitVec 32) (ha : 0 ∉ a) (hb : 0 ∉ b) :
    ((∀ i < count.toNat, (∀ j < i, a[j]? = b[j]?) → a[i]? ≠ b[i]? →
      (rtStrncmp a b count).toInt.sign = (((a.getD i 0).toNat : ℤ) - (b.getD i 0).toNat).sign) ∧
    ((rtStrncmp a b count).toInt = 0 ↔ ∀ i < count.toNat, a[i]? = b[i]?) ∧
    ((rtStrncmp a b count).toInt < 0 ↔ 0 < (rtStrncmp b a count).toInt) ∧
    (a.length < count.toNat → b.length < count.toNat →
      (rtStrncmp a b count).toInt.sign = (rtStrcmp a b).toInt.sign)) ↔
    FirstNear a b count.toNat := by
  rw [rtStrncmp_eq ha hb, rtStrncmp_eq hb ha, strncmp_swap a b]
  constructor
  · rintro ⟨hsign, -, hswap, -⟩ i hi hsame hdiff
    have hdiff' := hsign i hi hsame hdiff
    rw [strncmp_of_first hi hsame hdiff] at hdiff' hswap
    have hfits := (bmod_sign_iff (by omega) (by omega)).mp ⟨hdiff', hswap⟩
    omega
  · intro hnear
    have hfits := (firstNear_iff ha hb).mp hnear
    rw [Int.bmod_eq_of_le (by omega) (by omega), Int.bmod_eq_of_le (by omega) (by omega)]
    refine ⟨fun i hi hsame hdiff => ?_, strncmp_eq_zero_iff_getElem? ha hb, by omega,
      fun hlen _ => ?_⟩
    · rw [strncmp_of_first hi hsame hdiff]
    · rw [rtStrcmp_eq ha hb hlen]

/-- Bytes behind the first ones that are not the same do not matter. -/
theorem rtStrncmp_orders_first : (rtStrncmp [0x61, 0x62, 0xc8] [0x61, 0x63, 0x01] 3).toInt.sign =
      (((0x62 : Byte).toNat : ℤ) - (0x63 : Byte).toNat).sign :=
  ((rtStrncmp_orders [0x61, 0x62, 0xc8] [0x61, 0x63, 0x01] 3 (by decide) (by decide)).mpr
    (by decide)).1 1 (by decide) (by decide) (by decide)

/-- Bytes that are 199 apart: `__res` is negative, so the order is wrong. Bytes that are 128 apart:
each string is smaller than the other. -/
theorem rtStrncmp_signed_char :
    (rtStrncmp [0xc8] [0x01] 1).toInt < 0 ∧ 0 < (rtStrcmp [0xc8] [0x01]).toInt ∧
      (rtStrncmp [0x81] [0x01] 1).toInt < 0 ∧ (rtStrncmp [0x01] [0x81] 1).toInt < 0 := by
  decide

end RtThread
