import Mathlib.Data.Nat.Bitwise

/-!
# Configuration and base types

The constants of `rtconfig.h` and macros of `rtdef.h` that the models share. `rt_size_t` and
`rt_uint32_t` have 32 bits on this CPU: values are `Nat`s below `2 ^ 32`, and an operation that can
wrap is written with its wrap-around.
-/

namespace RtThread
open Nat

/-- `RT_ALIGN_SIZE` (`rtconfig.h:9`). -/
def rtAlignSize : Nat := 8

/-- Unsigned 32-bit subtraction. -/
def sub32 (a b : Nat) : Nat := (a + (2 ^ 32 - b % 2 ^ 32)) % 2 ^ 32

variable (size : Nat)

/-- `RT_ALIGN(size, align)` (`rtdef.h:273`): `((size) + (align) - 1) & ~((align) - 1)`. -/
def rtAlign (align : Nat) : Nat := (size + align - 1) % 2 ^ 32 &&& (2 ^ 32 - align)

/-- `RT_ALIGN_DOWN(size, align)` (`rtdef.h:282`): `(size) & ~((align) - 1)`. -/
def rtAlignDown (align : Nat) : Nat := size % 2 ^ 32 &&& (2 ^ 32 - align)

theorem sub32_of_le {a b : Nat} (h : b ≤ a := by omega) (ha : a < 2 ^ 32 := by omega) :
    sub32 a b = a - b := by
  have hb : b % 2 ^ 32 = b := mod_eq_of_lt (by omega)
  rw [sub32, hb]
  omega

theorem and_mask_two_pow {k x : Nat} (hk : k ≤ 32) (hx : x < 2 ^ 32) :
    x &&& (2 ^ 32 - 2 ^ k) = x / 2 ^ k * 2 ^ k := by
  have hmask : ∀ i, (2 ^ 32 - 2 ^ k).testBit i = (decide (i < 32) && !decide (i < k)) := by
    intro i
    have hpos : 0 < 2 ^ k := Nat.two_pow_pos k
    have hle : 2 ^ k ≤ 2 ^ 32 := Nat.pow_le_pow_right (by decide) hk
    rw [show 2 ^ 32 - 2 ^ k = 2 ^ 32 - (2 ^ k - 1 + 1) by omega,
      testBit_two_pow_sub_succ (by omega) i, testBit_two_pow_sub_one]
  have hshift : x / 2 ^ k * 2 ^ k = (x >>> k) <<< k := by
    rw [shiftLeft_eq, shiftRight_eq_div_pow]
  apply eq_of_testBit_eq
  intro i
  rw [testBit_and, hmask, hshift, testBit_shiftLeft, testBit_shiftRight]
  by_cases hik : i < k
  · simp [hik]
  · by_cases h32 : i < 32
    · have : k + (i - k) = i := by omega
      simp [hik, h32, this, Nat.le_of_not_lt hik]
    · have hlt : x < 2 ^ i := lt_of_lt_of_le hx (Nat.pow_le_pow_right (by decide) (by omega))
      have : k + (i - k) = i := by omega
      simp [h32, this, testBit_lt_two_pow hlt]

theorem rtAlign_two_pow {k : Nat} (hk : k ≤ 32) :
    rtAlign size (2 ^ k) = (size + 2 ^ k - 1) % 2 ^ 32 / 2 ^ k * 2 ^ k :=
  and_mask_two_pow hk (mod_lt _ (by decide))

theorem rtAlignDown_two_pow {k : Nat} (hk : k ≤ 32) :
    rtAlignDown size (2 ^ k) = size % 2 ^ 32 / 2 ^ k * 2 ^ k :=
  and_mask_two_pow hk (mod_lt _ (by decide))

theorem rtAlign_eight : rtAlign size 8 = (size + 7) % 2 ^ 32 / 8 * 8 :=
  rtAlign_two_pow size (k := 3) (by decide)

theorem rtAlignDown_eight : rtAlignDown size 8 = size % 2 ^ 32 / 8 * 8 :=
  rtAlignDown_two_pow size (k := 3) (by decide)

theorem dvd_rtAlign : 8 ∣ rtAlign size 8 := by
  rw [rtAlign_eight]
  exact dvd_mul_left _ _

theorem rtAlign_lt : rtAlign size 8 < 2 ^ 32 := by
  rw [rtAlign_eight]
  omega

theorem le_rtAlign {size : Nat} (h : size + 7 < 2 ^ 32) : size ≤ rtAlign size 8 := by
  rw [rtAlign_eight]
  omega

end RtThread
