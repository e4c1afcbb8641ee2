import Mathlib.Data.Nat.Digits.Lemmas

/-!
# Numerals

The numeral of an integer in a base, over any alphabet of digits, and the number that a numeral is
read as. The digits are those of `Nat.digits`, the first one last; zero has one digit all the same.
-/

namespace Numeral
open Nat
open List
variable {α : Type*} (b : ℕ) (digit : ℕ → α) (val : α → Option ℕ) (minus : α)

/-- The digits of a natural number, the most significant one first. -/
def ofNat (n : ℕ) : List α :=
  if n = 0 then [digit 0] else ((b.digits n).map digit).reverse

/-- The numeral of an integer. -/
def ofInt (z : ℤ) : List α :=
  if z < 0 then minus :: ofNat b digit z.natAbs else ofNat b digit z.natAbs

/-- A sign exactly for a negative number, at least one digit, and no zero in front of another digit.
-/
def Canonical (z : ℤ) (text : List α) : Prop :=
  ∃ ds : List ℕ, (∀ d ∈ ds, d < b) ∧ ds ≠ [] ∧ (ds.head? = some 0 → ds = [0]) ∧
    text = (if z < 0 then [minus] else []) ++ ds.map digit

/-- The number that digits are read as, the most significant one first. -/
def value (cs : List α) : Option ℕ := cs.foldlM (fun v c => (val c).map (b * v + ·)) 0

def parse [DecidableEq α] : List α → Option ℤ
  | [] => none
  | c :: cs =>
    if c = minus then
      if cs = [] then none else (value b val cs).map fun n => -(n : ℤ)
    else (value b val (c :: cs)).map fun n => (n : ℤ)

variable {b digit val minus}

theorem ofNat_of_lt {n : ℕ} (h : n < b) : ofNat b digit n = [digit n] := by
  rw [ofNat]
  split
  · rename_i hzero
    rw [hzero]
  · rename_i hne
    rw [digits_of_lt b n hne h]
    rfl

theorem ofInt_eq_append (z : ℤ) :
    ofInt b digit minus z = (if z < 0 then [minus] else []) ++ ofNat b digit z.natAbs := by
  rw [ofInt]
  split <;> rfl

theorem ofNat_ne_nil (n : ℕ) : ofNat b digit n ≠ [] := by
  rw [ofNat]
  split
  · simp
  · rename_i hne
    simpa using digits_ne_nil_iff_ne_zero.mpr hne

theorem value_digits (hval : ∀ d < b, val (digit d) = some d) {ds : List ℕ}
    (hds : ∀ d ∈ ds, d < b) : value b val (ds.map digit).reverse = some (ofDigits b ds) := by
  induction ds with
  | nil => rfl
  | cons d ds ih =>
    have htail := ih fun d' hd => hds d' (mem_cons_of_mem d hd)
    have hd := hval d (hds d mem_cons_self)
    rw [value] at htail ⊢
    rw [map_cons, reverse_cons, foldlM_append, htail]
    simp [hd, ofDigits_cons, add_comm]

theorem value_ofNat (hb : 1 < b) (hval : ∀ d < b, val (digit d) = some d) (n : ℕ) :
    value b val (ofNat b digit n) = some n := by
  by_cases hn : n = 0
  · rw [ofNat, if_pos hn, hn]
    simp [value, hval 0 (by omega)]
  · rw [ofNat, if_neg hn, value_digits hval fun d hd => digits_lt_base hb hd,
      ofDigits_digits]

theorem parse_ofInt [DecidableEq α] (hb : 1 < b) (hval : ∀ d < b, val (digit d) = some d)
    (hminus : val minus = none) (z : ℤ) :
    parse b val minus (ofInt b digit minus z) = some z := by
  rw [ofInt]
  split
  · have hz : -(z.natAbs : ℤ) = z := by omega
    rw [parse, if_pos rfl, if_neg (ofNat_ne_nil _), value_ofNat hb hval]
    exact congrArg some hz
  · have hz : (z.natAbs : ℤ) = z := by omega
    have hread := value_ofNat hb hval z.natAbs
    cases hcs : ofNat b digit z.natAbs with
    | nil => exact absurd hcs (ofNat_ne_nil _)
    | cons c cs =>
      rw [hcs] at hread
      -- the first digit has a value, and the sign has none
      have hc : c ≠ minus := by
        rintro rfl
        simp [value, hminus] at hread
      rw [parse, if_neg hc, hread]
      exact congrArg some hz

/-- Digits of a larger base that are read in the base `b` have to be digits of it. -/
theorem eq_of_value_digits {B m : ℕ} {ds : List ℕ}
    (hval : ∀ d < B, val (digit d) = if d < b then some d else none) (hds : ∀ d ∈ ds, d < B)
    (h : value b val (ds.map digit).reverse = some m) : m = ofDigits b ds ∧ ∀ d ∈ ds, d < b := by
  induction ds generalizing m with
  | nil =>
    cases h
    exact ⟨rfl, by simp⟩
  | cons d ds ih =>
    rw [value, map_cons, reverse_cons, foldlM_append] at h
    obtain ⟨v, hv, hlast⟩ := Option.bind_eq_some_iff.mp h
    obtain ⟨rfl, hall⟩ := ih (fun d' hd => hds d' (mem_cons_of_mem d hd)) hv
    rw [foldlM_cons, hval d (hds d mem_cons_self)] at hlast
    split at hlast
    · rename_i hd
      obtain rfl : b * ofDigits b ds + d = m := by simpa using hlast
      exact ⟨by simp [ofDigits_cons, add_comm], by simpa [hd] using hall⟩
    · simp at hlast

/-- A number with more than one digit in the base `b`, written in a larger base, is not read back.
-/
theorem value_ofNat_ne {B n : ℕ} (hb : 1 < b) (hB : b < B)
    (hval : ∀ d < B, val (digit d) = if d < b then some d else none) (hn : b ≤ n) :
    value b val (ofNat B digit n) ≠ some n := by
  intro h
  rw [ofNat, if_neg (by omega), digits_def' (by omega) (by omega)] at h
  have hds : ∀ d ∈ n % B :: B.digits (n / B), d < B := by
    simpa [mod_lt n (by omega : 0 < B)] using fun d hd => digits_lt_base (by omega) hd
  obtain ⟨heq, hall⟩ := eq_of_value_digits hval hds h
  have hsmall := hall _ mem_cons_self
  have hless : ofDigits b (B.digits (n / B)) ≤ n / B :=
    (ofDigits_monotone _ hB.le).trans_eq (ofDigits_digits B (n / B))
  have hdiv := mod_add_div n B
  rw [ofDigits_cons] at heq
  have hle : B * (n / B) ≤ b * (n / B) := by
    have := Nat.mul_le_mul_left b hless
    omega
  have hzero : n / B = 0 := by
    by_contra hpos
    exact absurd (Nat.le_of_mul_le_mul_right hle (Nat.pos_of_ne_zero hpos)) (by omega)
  rw [hzero] at hdiv
  omega

theorem parse_ofInt_ne [DecidableEq α] {B : ℕ} {z : ℤ} (hb : 1 < b) (hB : b < B)
    (hval : ∀ d < B, val (digit d) = if d < b then some d else none) (hz : b ≤ z) :
    parse b val minus (ofInt B digit minus z) ≠ some z := by
  have hne := value_ofNat_ne hb hB hval (n := z.natAbs) (by omega)
  rw [ofInt, if_neg (by omega)]
  cases hcs : ofNat B digit z.natAbs with
  | nil => exact absurd hcs (ofNat_ne_nil _)
  | cons c cs =>
    rw [hcs] at hne
    rw [parse]
    split
    · split
      · simp
      · cases value b val cs with
        | none => simp
        | some n =>
          simp
          omega
    · cases hv : value b val (c :: cs) with
      | none => simp
      | some n =>
        rw [hv] at hne
        simp at hne ⊢
        omega

theorem canonical_ofInt (hb : 1 < b) (z : ℤ) :
    Canonical b digit minus z (ofInt b digit minus z) := by
  rw [ofInt_eq_append]
  by_cases hz : z.natAbs = 0
  · exact ⟨[0], by simp; omega, by simp, by simp, by rw [ofNat, if_pos hz]; rfl⟩
  · have hnil : b.digits z.natAbs ≠ [] := digits_ne_nil_iff_ne_zero.mpr hz
    refine ⟨(b.digits z.natAbs).reverse, fun d hd => ?_, ?_, fun hhead => ?_, ?_⟩
    · exact digits_lt_base hb (mem_reverse.mp hd)
    · simpa using hnil
    · have hlast := getLast_digit_ne_zero b hz
      rw [List.head?_reverse, List.getLast?_eq_some_getLast hnil] at hhead
      exact absurd (Option.some.inj hhead) hlast
    · rw [ofNat, if_neg hz, map_reverse]

theorem length_ofNat (hb : 1 < b) {n k : ℕ} (hk : 0 < k) (h : n < b ^ k) :
    (ofNat b digit n).length ≤ k := by
  rw [ofNat]
  split
  · exact hk
  · rw [length_reverse, length_map]
    exact (digits_length_le_iff hb n).mpr h

end Numeral
