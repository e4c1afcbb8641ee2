import Mathlib.Data.Nat.ModEq
import Mathlib.Logic.Function.Iterate

/-!
# Delays by polling the SysTick counter

`udelay.c`. `rt_hw_us_delay` reads `SysTick->VAL` twice in a round of its loop, and takes a reading
that is not below the first one for a reload. `1000000/RT_TICK_PER_SECOND` is 1000.
-/

namespace RtThread
open List

section
variable (load : BitVec 24) (start : Fin (load.toNat + 1)) (us : BitVec 32)

/-- `SysTick->VAL`, which counts down by one per clock and reloads `load` after 0. -/
def sysTickVal (clock : Nat) : BitVec 32 :=
  let past := clock % (load.toNat + 1)
  .ofNat 32 (if past ≤ start then start - past else start + load.toNat + 1 - past)

/-- `current_delay` (`:35-39`), where `delta`, the test and the subtraction read at three clocks. -/
def currentDelay (t a b : Nat) : BitVec 32 :=
  let val := sysTickVal load start
  if val t > val a then val t - val b else load.setWidth 32 + val t - val b

/-- The new `us` (`:27`). -/
def usClocks : BitVec 32 := us * (load.setWidth 32 / 1000)

/-- `rt_hw_us_delay` (`:21-41`) with the clocks of its readings: the round in which it ends. -/
def rtHwUsDelay (t : Nat) (rounds : List (Nat × Nat)) : Option (Nat × Nat) :=
  rounds.find? fun (a, b) => usClocks load us ≤ currentDelay load start t a b

/-- `rt_hw_us_delay` with a round at each of the `n` clocks behind `t`: the clock of its end. -/
def sampledUsDelay (n t : Nat) : Option Nat :=
  (rtHwUsDelay load start us t ((range' (t + 1) n).map fun k => (k, k))).map Prod.fst

/-- `rt_hw_ms_delay` (`:43-51`), for an argument below `2 ^ 31`. -/
def rtHwMsDelay (n ms t : Nat) : Option Nat :=
  (Option.bind · (sampledUsDelay load start 1000 n))^[ms] (some t)

/-- `rt_hw_s_delay` (`:53-61`), for an argument below `2 ^ 31`. -/
def rtHwSDelay (n s t : Nat) : Option Nat :=
  (Option.bind · (rtHwMsDelay load start n 1000))^[s] (some t)

end

variable {load : BitVec 24} {start : Fin (load.toNat + 1)} {us : BitVec 32} {t : Nat}

theorem sysTickVal_toNat (start : Fin (load.toNat + 1)) (h : t ≤ load.toNat) :
    (sysTickVal load start t).toNat = if t ≤ start then start - t
      else start + load.toNat + 1 - t := by
  rw [sysTickVal, Nat.mod_eq_of_lt (Nat.lt_succ_of_le h)]
  refine Nat.mod_eq_of_lt ?_
  split <;> omega

theorem sysTickVal_mod :
    sysTickVal load start (t % (load.toNat + 1)) = sysTickVal load start t := by
  rw [sysTickVal, Nat.mod_mod, sysTickVal]

theorem sysTickVal_le (start : Fin (load.toNat + 1)) (t : Nat) :
    (sysTickVal load start t).toNat ≤ load.toNat := by
  rw [← sysTickVal_mod, sysTickVal_toNat _ (Nat.le_of_lt_succ (Nat.mod_lt _ (Nat.succ_pos _)))]
  split <;> omega

/-- Both readings of a round at one clock: `current_delay` is at most one period. -/
theorem currentDelay_self_le (k : Nat) : (currentDelay load start t k k).toNat ≤ load.toNat := by
  have hdelta := sysTickVal_le start t
  have hval := sysTickVal_le start k
  rw [currentDelay]
  split <;> simp only [gt_iff_lt, BitVec.lt_def, BitVec.toNat_sub, BitVec.toNat_add,
    BitVec.toNat_setWidth] at * <;> omega

theorem currentDelay_period : currentDelay load start t (t + 1 + load.toNat) (t + 1 + load.toNat) =
    load.setWidth 32 := by
  have hval : sysTickVal load start (t + 1 + load.toNat) = sysTickVal load start t := by
    rw [← sysTickVal_mod, Nat.add_assoc, Nat.add_comm 1, Nat.add_mod_right, sysTickVal_mod]
  rw [currentDelay, hval, if_neg (BitVec.lt_irrefl _), BitVec.add_sub_cancel]

theorem sampledUsDelay_isSome {n : Nat} : (sampledUsDelay load start us n t).isSome ↔
    ∃ k ∈ range' (t + 1) n, usClocks load us ≤ currentDelay load start t k k := by
  simp [sampledUsDelay, rtHwUsDelay]

theorem sampledUsDelay_ends (h : (usClocks load us).toNat ≤ load.toNat) (t : Nat) :
    (sampledUsDelay load start us (load.toNat + 1) t).isSome := by
  refine sampledUsDelay_isSome.mpr ⟨t + 1 + load.toNat, by simp, ?_⟩
  rwa [currentDelay_period, BitVec.le_def, BitVec.toNat_setWidth_of_le (by decide)]

theorem iterate_bind_isSome {f : Nat → Option Nat} (hf : ∀ t, (f t).isSome) (n t : Nat) :
    ((Option.bind · f)^[n] (some t)).isSome := by
  induction n generalizing t with
  | zero => rfl
  | succ n ih =>
    obtain ⟨t', heq⟩ := Option.isSome_iff_exists.mp (hf t)
    rw [Function.iterate_succ_apply, Option.bind_some, heq]
    exact ih t'

/-- `rt_hw_us_delay` ends if and only if its product, which may wrap, is at most one period; the
delays of whole milliseconds and seconds end. -/
theorem us_delay_ends_iff (load : BitVec 24) (start : Fin (load.toNat + 1)) (us : BitVec 32)
    (t : Nat) : ((∃ n, (sampledUsDelay load start us n t).isSome) ↔
      (usClocks load us).toNat ≤ load.toNat) ∧
    ∀ arg < 2 ^ 31, (∃ n, (rtHwMsDelay load start n arg t).isSome) ∧
      ∃ n, (rtHwSDelay load start n arg t).isSome := by
  refine ⟨⟨?_, fun h => ⟨_, sampledUsDelay_ends h t⟩⟩, fun arg _ => ?_⟩
  · rintro ⟨n, hsome⟩
    obtain ⟨k, -, hle⟩ := sampledUsDelay_isSome.mp hsome
    exact Nat.le_trans hle (currentDelay_self_le k)
  · have hms := iterate_bind_isSome (f := sampledUsDelay load start 1000 _)
      (sampledUsDelay_ends (by simp [usClocks]; omega))
    exact ⟨⟨_, hms arg t⟩, _, iterate_bind_isSome (hms 1000) arg t⟩

/-- With a `LOAD` of 1000 clocks, 1001 microseconds are more than a period. -/
theorem us_delay_endless : ¬ ∃ n, (sampledUsDelay 1000 0 1001 n 0).isSome := by
  rintro ⟨n, hsome⟩
  obtain ⟨k, -, hle⟩ := sampledUsDelay_isSome.mp hsome
  exact absurd (Nat.le_trans hle (currentDelay_self_le k)) (by decide)

theorem le_currentDelay_iff {us a b : Nat} (hus : us < load.toNat) (hab : a ≤ b) (hb : b < us) :
    us ≤ (currentDelay load start 0 a b).toNat ↔
      a = 0 ∧ b ≤ start ∨ 0 < a ∧ a ≤ start ∧ start < b := by
  have hval {t : Nat} (h : t ≤ b) := sysTickVal_toNat start (t := t) (by omega)
  rw [currentDelay]
  split <;> simp only [gt_iff_lt, BitVec.lt_def, BitVec.toNat_sub, BitVec.toNat_add,
    BitVec.toNat_setWidth, hval b.zero_le, hval hab, hval b.le_refl] at * <;>
      split_ifs at * <;> omega

/-- The first round that leaves the loop is late if and only if no early round leaves it. -/
theorem find?_late_iff {p : Nat × Nat → Bool} {us : Nat} {rounds : List (Nat × Nat)}
    (hround : ∀ r ∈ rounds, r.1 ≤ r.2) (hrounds : rounds.Pairwise fun r r' => r.2 ≤ r'.1) :
    (∀ r, rounds.find? p = some r → us ≤ r.2) ↔ ∀ r ∈ rounds, r.2 < us → p r = false := by
  induction rounds with
  | nil => simp
  | cons r rounds ih =>
    obtain ⟨hhead, htail⟩ := pairwise_cons.mp hrounds
    obtain ⟨-, hround⟩ := forall_mem_cons.mp hround
    have ih := ih hround htail
    rw [find?_cons, forall_mem_cons]
    cases hp : p r <;> grind

/-- `rt_hw_us_delay` waits long enough if and only if, until the delay is over, no round tests the
counter at the clock of the first reading and subtracts before the reload, and none tests it behind
this clock and subtracts across the reload. -/
theorem us_delay_long_iff (load : BitVec 24) (start : Fin (load.toNat + 1)) (us : BitVec 32)
    (rounds : List (Nat × Nat)) (hus : us.toNat * (load.toNat / 1000) < load.toNat)
    (hround : ∀ r ∈ rounds, r.1 ≤ r.2) (hrounds : rounds.Pairwise fun r r' => r.2 ≤ r'.1) :
    (∀ r, rtHwUsDelay load start us 0 rounds = some r → us.toNat * (load.toNat / 1000) ≤ r.2) ↔
    ∀ r ∈ rounds, r.2 < us.toNat * (load.toNat / 1000) →
      ¬ (r.1 = 0 ∧ r.2 ≤ start ∨ 0 < r.1 ∧ r.1 ≤ start ∧ start < r.2) := by
  have hprod : (usClocks load us).toNat = us.toNat * (load.toNat / 1000) := by
    rw [usClocks, BitVec.toNat_mul, BitVec.toNat_udiv, BitVec.toNat_setWidth_of_le (by decide)]
    exact Nat.mod_eq_of_lt (by simp; omega)
  rw [rtHwUsDelay, find?_late_iff hround hrounds]
  refine forall₃_congr fun r hr hlt => ?_
  rw [decide_eq_false_iff_not, BitVec.le_def, hprod, le_currentDelay_iff hus (hround r hr) hlt]

theorem us_delay_long_before_reload :
    rtHwUsDelay 119999 60000 1 0 [(40, 70), (90, 110), (130, 200)] = some (130, 200) ∧
      1 * (119999 / 1000) ≤ 200 :=
  ⟨by decide, (us_delay_long_iff 119999 60000 1 [(40, 70), (90, 110), (130, 200)] (by decide)
    (by decide) (by decide)).mpr (by decide) (130, 200) (by decide)⟩

/-- The test reads 0, then the counter reloads: 500 microseconds are over after two clocks. -/
theorem us_delay_reload : rtHwUsDelay 119999 1 500 0 [(1, 2)] = some (1, 2) ∧
    2 < 500 * (119999 / 1000) := by decide

end RtThread
