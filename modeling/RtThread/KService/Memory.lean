import RtThread.Lib.ByteMem

/-!
# `rt_memset` and `rt_memcpy`

`kservice.c` fills and copies memory by words where it can: four words in a round, then single
words, then single bytes. With `RT_TINY_SIZE` it does the same byte by byte. Addresses are numbers;
a range that ends within the 32-bit address space is not reached by an address that wraps around.
-/

namespace RtThread
open Nat
open ByteMem
open BitVec

/-- `while (count--) *xs++ = c;` -/
def fillBytes (m : ByteMem) (xs : ℕ) (c : BitVec 8) : ℕ → ByteMem
  | 0 => m
  | count + 1 => fillBytes (Function.update m xs c) (xs + 1) c count

/-- `rt_memset` with `RT_TINY_SIZE` (`kservice.c:138-144`). -/
def rtMemsetTiny (m : ByteMem) (s : ℕ) (c count : BitVec 32) : ℕ × ByteMem :=
  (s, fillBytes m s (c.setWidth 8) count.toNat)

/-- `while (count >= LBLOCKSIZE * 4)`, with the memory, the pointer and the rest of `count`. -/
def fillBlocks (m : ByteMem) (buffer : BitVec 32) (aligned : ℕ) : ℕ → ByteMem × ℕ × ℕ
  | count + 16 =>
    let m := m.writeLE 4 aligned buffer.toNat
    let m := m.writeLE 4 (aligned + 4) buffer.toNat
    let m := m.writeLE 4 (aligned + 8) buffer.toNat
    let m := m.writeLE 4 (aligned + 12) buffer.toNat
    fillBlocks m buffer (aligned + 16) count
  | count => (m, aligned, count)

/-- `while (count >= LBLOCKSIZE)`. -/
def fillWords (m : ByteMem) (buffer : BitVec 32) (aligned : ℕ) : ℕ → ByteMem × ℕ × ℕ
  | count + 4 => fillWords (m.writeLE 4 aligned buffer.toNat) buffer (aligned + 4) count
  | count => (m, aligned, count)

/-- `rt_memset` (`:136-206`). -/
def rtMemset (m : ByteMem) (s : ℕ) (c count : BitVec 32) : ℕ × ByteMem :=
  let d := c &&& 0xff#32
  if 4#32 ≤ count ∧ s % 4 = 0 then
    let buffer := d <<< 8 ||| d
    let buffer := buffer ||| buffer <<< 16
    let (m, aligned, left) := fillBlocks m buffer s count.toNat
    let (m, aligned, left) := fillWords m buffer aligned left
    (s, fillBytes m aligned (d.setWidth 8) left)
  else (s, fillBytes m s (d.setWidth 8) count.toNat)

/-- `while (count--) *tmp++ = *s++;` -/
def copyBytes (m : ByteMem) (dst src : ℕ) : ℕ → ByteMem
  | 0 => m
  | count + 1 => copyBytes (Function.update m dst (m src)) (dst + 1) (src + 1) count

/-- `rt_memcpy` with `RT_TINY_SIZE` (`:221-227`). -/
def rtMemcpyTiny (m : ByteMem) (dst src : ℕ) (count : BitVec 32) : ℕ × ByteMem :=
  (dst, copyBytes m dst src count.toNat)

/-- `*aligned_dst = *aligned_src;` -/
def copyWord (m : ByteMem) (dst src : ℕ) : ByteMem := m.writeLE 4 dst (m.readLE 4 src)

/-- `while (len >= BIGBLOCKSIZE)`, with the memory, the pointers and the rest of `len`. -/
def copyBlocks (m : ByteMem) (dst src : ℕ) : ℕ → ByteMem × ℕ × ℕ × ℕ
  | len + 16 =>
    let m := copyWord m dst src
    let m := copyWord m (dst + 4) (src + 4)
    let m := copyWord m (dst + 8) (src + 8)
    let m := copyWord m (dst + 12) (src + 12)
    copyBlocks m (dst + 16) (src + 16) len
  | len => (m, dst, src, len)

/-- `while (len >= LITTLEBLOCKSIZE)`. -/
def copyWords (m : ByteMem) (dst src : ℕ) : ℕ → ByteMem × ℕ × ℕ × ℕ
  | len + 4 => copyWords (copyWord m dst src) (dst + 4) (src + 4) len
  | len => (m, dst, src, len)

/-- `rt_memcpy` (`:219-281`). `len` is an `int`, but it is compared with multiples of
`sizeof(rt_int32_t)`, so that it counts as an unsigned number. -/
def rtMemcpy (m : ByteMem) (dst src : ℕ) (count : BitVec 32) : ℕ × ByteMem :=
  let len := count.toNat
  if 16 ≤ len ∧ src % 4 = 0 ∧ dst % 4 = 0 then
    let (m, dstPtr, srcPtr, len) := copyBlocks m dst src len
    let (m, dstPtr, srcPtr, len) := copyWords m dstPtr srcPtr len
    (dst, copyBytes m dstPtr srcPtr len)
  else (dst, copyBytes m dst src len)

theorem fillBytes_eq (m : ByteMem) (a : ℕ) (c : BitVec 8) (n : ℕ) :
    fillBytes m a c n = m.fill a n c := by
  induction n generalizing m a with
  | zero => rw [fillBytes, fill_zero]
  | succ n ih =>
    rw [fillBytes, ih, update_eq_fill, fill_fill, add_comm 1 n]

/-- The word `buffer` holds the byte `c` four times. -/
def Broadcast (buffer : BitVec 32) (c : BitVec 8) : Prop :=
  ∀ i < 4, BitVec.ofNat 8 (buffer.toNat / 256 ^ i) = c

theorem broadcast_memset (c : BitVec 32) :
    Broadcast (((c &&& 0xff#32) <<< 8 ||| (c &&& 0xff#32)) |||
      ((c &&& 0xff#32) <<< 8 ||| (c &&& 0xff#32)) <<< 16) (c.setWidth 8) := by
  have hlow : c &&& 0xff#32 = (c.setWidth 8).setWidth 32 := by
    refine eq_of_toNat_eq ?_
    rw [toNat_and, toNat_setWidth, toNat_setWidth]
    exact (and_two_pow_sub_one_eq_mod c.toNat 8).trans (by omega)
  have hbytes : ∀ d : BitVec 8, Broadcast ((d.setWidth 32 <<< 8 ||| d.setWidth 32) |||
      (d.setWidth 32 <<< 8 ||| d.setWidth 32) <<< 16) d := by
    unfold Broadcast
    decide +kernel
  rw [hlow]
  exact hbytes _

theorem setWidth_and_ff (c : BitVec 32) : (c &&& 0xff#32).setWidth 8 = c.setWidth 8 := by
  refine eq_of_toNat_eq ?_
  rw [toNat_setWidth, toNat_setWidth, toNat_and]
  have hmod := and_two_pow_sub_one_eq_mod c.toNat 8
  exact (congrArg (· % 2 ^ 8) hmod).trans (mod_mod _ _)

section Fill
variable {buffer : BitVec 32} {c : BitVec 8}

section
variable (h : Broadcast buffer c) (m : ByteMem)
include h

theorem Broadcast.writeLE (a : ℕ) : m.writeLE 4 a buffer.toNat = m.fill a 4 c :=
  writeLE_eq_fill m h a

theorem Broadcast.fillBlocks (a count : ℕ) : ∃ done left, done + left = count ∧
      fillBlocks m buffer a count = (m.fill a done c, a + done, left) := by
  fun_induction RtThread.fillBlocks m buffer a count with
  | case1 m a count m1 m2 m3 m4 ih =>
    obtain ⟨done, left, hsum, heq⟩ := ih
    have hround : m4 = m.fill a 16 c := by
      simp only [m4, m3, m2, m1, h.writeLE]
      rw [fill_fill m a 4 4, fill_fill m a 8 4, fill_fill m a 12 4]
    refine ⟨16 + done, left, by omega, ?_⟩
    rw [heq, hround, fill_fill, add_assoc]
  | case2 m a count =>
    exact ⟨0, count, zero_add count, by rw [fill_zero, add_zero]⟩

theorem Broadcast.fillWords (a count : ℕ) : ∃ done left, done + left = count ∧
      fillWords m buffer a count = (m.fill a done c, a + done, left) := by
  fun_induction RtThread.fillWords m buffer a count with
  | case1 m a count ih =>
    obtain ⟨done, left, hsum, heq⟩ := ih
    refine ⟨4 + done, left, by omega, ?_⟩
    rw [heq, h.writeLE, fill_fill, add_assoc]
  | case2 m a count =>
    exact ⟨0, count, zero_add count, by rw [fill_zero, add_zero]⟩

end
end Fill

theorem rtMemset_eq_fill (m : ByteMem) (s : ℕ) (c count : BitVec 32) :
    rtMemset m s c count = (s, m.fill s count.toNat (c.setWidth 8)) := by
  have hword := broadcast_memset c
  rw [rtMemset]
  split
  · obtain ⟨done, left, hsum, hblocks⟩ := hword.fillBlocks m s count.toNat
    obtain ⟨done', left', hsum', hwords⟩ :=
      hword.fillWords (m.fill s done (c.setWidth 8)) (s + done) left
    simp only [hblocks, hwords, fillBytes_eq, setWidth_and_ff, fill_fill]
    rw [add_assoc, fill_fill]
    congr 2
    omega
  · rw [fillBytes_eq, setWidth_and_ff]

section Copy

/-- The `n` bytes from `dst` on and the `n` bytes from `src` on do not overlap. -/
def Apart (dst src n : ℕ) : Prop := dst + n ≤ src ∨ src + n ≤ dst

section
variable (m : ByteMem)

theorem copyBytes_eq {dst src n : ℕ} (h : Apart dst src n) :
    copyBytes m dst src n = m.copy dst src n := by
  induction n generalizing m dst src with
  | zero => rw [copyBytes, copy_zero]
  | succ n ih =>
    rw [Apart] at h
    have hrest : Apart (dst + 1) (src + 1) n := by rw [Apart]; omega
    rw [copyBytes, ih _ hrest, update_eq_copy, copy_copy m (by omega), add_comm 1 n]

theorem copyWord_eq (dst src : ℕ) : copyWord m dst src = m.copy dst src 4 :=
  writeLE_readLE m 4 dst src

theorem copyBlocks_eq {dst src len : ℕ} (h : Apart dst src len) : ∃ done left, done + left = len ∧
      copyBlocks m dst src len = (m.copy dst src done, dst + done, src + done, left) := by
  fun_induction copyBlocks m dst src len with
  | case1 m dst src len m1 m2 m3 m4 ih =>
    rw [Apart] at h
    obtain ⟨done, left, hsum, heq⟩ := ih (by rw [Apart]; omega)
    have hround : m4 = m.copy dst src 16 := by
      simp only [m4, m3, m2, m1, copyWord_eq]
      rw [copy_copy m (by omega), copy_copy m (by omega),
        copy_copy m (by omega)]
    refine ⟨16 + done, left, by omega, ?_⟩
    rw [heq, hround, copy_copy m (by omega), add_assoc, add_assoc]
  | case2 m dst src len =>
    exact ⟨0, len, zero_add len, by simp⟩

theorem copyWords_eq {dst src len : ℕ} (h : Apart dst src len) : ∃ done left, done + left = len ∧
      copyWords m dst src len = (m.copy dst src done, dst + done, src + done, left) := by
  fun_induction copyWords m dst src len with
  | case1 m dst src len ih =>
    rw [Apart] at h
    obtain ⟨done, left, hsum, heq⟩ := ih (by rw [Apart]; omega)
    refine ⟨4 + done, left, by omega, ?_⟩
    rw [heq, copyWord_eq, copy_copy m (by omega), add_assoc, add_assoc]
  | case2 m dst src len =>
    exact ⟨0, len, zero_add len, by simp⟩

theorem rtMemcpy_eq_copy {dst src : ℕ} {count : BitVec 32} (h : Apart dst src count.toNat) :
    rtMemcpy m dst src count = (dst, m.copy dst src count.toNat) := by
  rw [rtMemcpy]
  split
  · obtain ⟨done, left, hsum, hblocks⟩ := copyBlocks_eq m h
    rw [Apart] at h
    have hleft : Apart (dst + done) (src + done) left := by rw [Apart]; omega
    obtain ⟨done', left', hsum', hwords⟩ := copyWords_eq (m.copy dst src done) hleft
    have hbytes : Apart (dst + done + done') (src + done + done') left' := by rw [Apart]; omega
    simp only [hblocks, hwords, copyBytes_eq _ hbytes]
    rw [copy_copy m (by omega), add_assoc, add_assoc, copy_copy m (by omega)]
    congr 2
    omega
  · rw [copyBytes_eq m h]

end
end Copy

/-- For ranges in the 32-bit address space, the words of `rt_memset` and `rt_memcpy` leave the
memory that the byte loops leave, and they touch no byte outside the destination. -/
theorem memset_memcpy_eq_tiny (m : ByteMem) (dst src : ℕ) (c count : BitVec 32) :
    (dst + count.toNat ≤ 2 ^ 32 → rtMemset m dst c count = rtMemsetTiny m dst c count ∧
      ∀ x, x < dst ∨ dst + count.toNat ≤ x → (rtMemset m dst c count).2 x = m x) ∧
    (dst + count.toNat ≤ 2 ^ 32 → src + count.toNat ≤ 2 ^ 32 → Apart dst src count.toNat →
      rtMemcpy m dst src count = rtMemcpyTiny m dst src count ∧
      ∀ x, x < dst ∨ dst + count.toNat ≤ x → (rtMemcpy m dst src count).2 x = m x) := by
  refine ⟨fun _ => ⟨?_, fun x hx => ?_⟩, fun _ _ hapart => ⟨?_, fun x hx => ?_⟩⟩
  · rw [rtMemset_eq_fill, rtMemsetTiny, fillBytes_eq]
  · rw [rtMemset_eq_fill]
    exact if_neg (by omega)
  · rw [rtMemcpy_eq_copy m hapart, rtMemcpyTiny, copyBytes_eq m hapart]
  · rw [rtMemcpy_eq_copy m hapart]
    exact if_neg (by omega)

/-- More than half of the address space is filled, and one half is copied to the other. -/
theorem memset_memcpy_eq_tiny_half :
    rtMemset (fun _ => 0) 5 0x5a 0x80000003 = rtMemsetTiny (fun _ => 0) 5 0x5a 0x80000003 ∧
      rtMemcpy (fun _ => 0) 0 0x80000000 0x80000000 =
        rtMemcpyTiny (fun _ => 0) 0 0x80000000 0x80000000 :=
  ⟨((memset_memcpy_eq_tiny (fun _ => 0) 5 0 0x5a 0x80000003).1 (by decide)).1,
    ((memset_memcpy_eq_tiny (fun _ => 0) 0 0x80000000 0 0x80000000).2 (by decide) (by decide)
      (.inl (by decide))).1⟩

end RtThread
