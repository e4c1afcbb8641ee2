import RtThread.Basic

/-!
# littlefs on its flash device

The blocks that `dfs_lfs.c` makes of a flash device, and the byte ranges that its callbacks hand to
the device, where offsets are signed.
-/

namespace RtThread

/-- The fields of `struct rt_mtd_nor_device` (`mtd_nor.h:19-29`) that are about its blocks. -/
structure MtdNor where
  blockSize : BitVec 32
  blockStart : BitVec 32
  blockEnd : BitVec 32

/-- `LFS_BLOCK_SIZE` (`dfs_lfs.c:28-30`). -/
def lfsBlockSize : BitVec 32 := 4096

/-- The fields of `struct lfs_config` that are about blocks. -/
structure LfsConfig where
  blockSize : BitVec 32
  blockCount : BitVec 32

/-- `_lfs_load_config` (`:223-251`). -/
def lfsLoadConfig (mtd : MtdNor) : LfsConfig where
  blockSize := if mtd.blockSize < lfsBlockSize then lfsBlockSize else mtd.blockSize
  blockCount := mtd.blockEnd - mtd.blockStart

/-- What littlefs asks for; `off` is inside of the block. -/
inductive FlashOp
  | read (block off size : BitVec 32)
  | prog (block off size : BitVec 32)
  | erase (block : BitVec 32)

namespace FlashOp

def block : FlashOp → BitVec 32
  | read block _ _ | prog block _ _ | erase block => block

def off : FlashOp → BitVec 32
  | read _ off _ | prog _ off _ => off
  | erase _ => 0

/-- The length that `_lfs_flash_read`, `_lfs_flash_prog` and `_lfs_flash_erase` pass
(`:68-121`). -/
def length (c : LfsConfig) : FlashOp → BitVec 32
  | read _ _ size | prog _ _ size => size
  | erase _ => c.blockSize

/-- The offset that they pass, as a `rt_off_t`. -/
def offset (c : LfsConfig) (op : FlashOp) : Int := (op.block * c.blockSize + op.off).toInt

/-- The byte of the device that is meant. -/
def address (c : LfsConfig) (op : FlashOp) : Nat :=
  op.block.toNat * c.blockSize.toNat + op.off.toNat

/-- littlefs stays inside of its blocks. -/
structure Issued (c : LfsConfig) (op : FlashOp) : Prop where
  block : op.block.toNat < c.blockCount.toNat
  fits : op.off.toNat + (op.length c).toNat ≤ c.blockSize.toNat

end FlashOp

open Nat
open BitVec
open FlashOp

/-- Offsets do not wrap, ranges are inside of the blocks of the device, and those of different
blocks are apart. -/
structure MtdNor.Inside (mtd : MtdNor) (c : LfsConfig) : Prop where
  exact : ∀ op, Issued c op → op.offset c = op.address c
  lower : ∀ op, Issued c op → mtd.blockStart.toNat * mtd.blockSize.toNat ≤ op.address c
  upper : ∀ op, Issued c op →
    op.address c + (op.length c).toNat ≤ mtd.blockEnd.toNat * mtd.blockSize.toNat
  apart : ∀ op op', Issued c op → Issued c op' → op.block ≠ op'.block →
    op.address c + (op.length c).toNat ≤ op'.address c ∨
      op'.address c + (op'.length c).toNat ≤ op.address c

variable {mtd : MtdNor} {c : LfsConfig} {op : FlashOp}

theorem FlashOp.Issued.end_le (h : Issued c op) {n : Nat} (hn : op.block.toNat < n) :
    op.address c + (op.length c).toNat ≤ n * c.blockSize.toNat := by
  have hmul := mul_le_mul_right c.blockSize.toNat (succ_le_of_lt hn)
  have hfits := h.fits
  rw [Nat.succ_mul] at hmul
  unfold address
  omega

theorem FlashOp.Issued.offset_eq (h : Issued c op)
    (hfit : c.blockCount.toNat * c.blockSize.toNat < 2 ^ 31) : op.offset c = op.address c := by
  have hend := h.end_le h.block
  have hnat : (op.block * c.blockSize + op.off).toNat = op.address c := by
    unfold address at hend ⊢
    rw [toNat_add, toNat_mul, mod_add_mod, mod_eq_of_lt (by omega)]
  rw [offset, toInt_eq_toNat_of_lt (by omega), hnat]

/-- littlefs stays inside of the device exactly if the blocks start at zero, are not smaller than
`LFS_BLOCK_SIZE`, and end where an offset is still positive. -/
theorem inside_iff (hstart : mtd.blockStart.toNat < mtd.blockEnd.toNat)
    (hsize : 0 < mtd.blockSize.toNat) :
    mtd.Inside (lfsLoadConfig mtd) ↔ mtd.blockStart = 0 ∧ lfsBlockSize ≤ mtd.blockSize ∧
        mtd.blockEnd.toNat * mtd.blockSize.toNat < 2 ^ 31 := by
  have hcount : (lfsLoadConfig mtd).blockCount.toNat = mtd.blockEnd.toNat - mtd.blockStart.toNat :=
    toNat_sub_of_le (le_def.mpr hstart.le)
  have hmax : (lfsLoadConfig mtd).blockSize =
    if mtd.blockSize < lfsBlockSize then lfsBlockSize else mtd.blockSize := rfl
  generalize lfsLoadConfig mtd = c at hcount hmax ⊢
  constructor
  · intro h
    have hlast : (c.blockCount - 1).toNat = c.blockCount.toNat - 1 :=
      toNat_sub_of_le (le_def.mpr (by simp; omega))
    have hlt : (c.blockCount - 1).toNat < c.blockCount.toNat := by omega
    -- the first block is at zero
    have hlower := h.lower (.erase 0) ⟨by simp [block]; omega, (zero_add _).le⟩
    have hzero : mtd.blockStart.toNat = 0 := by simpa [address, block, off, hsize.ne'] using hlower
    -- the last one ends with the device
    have hmul : (c.blockCount - 1).toNat * c.blockSize.toNat + c.blockSize.toNat =
        mtd.blockEnd.toNat * c.blockSize.toNat := by
      rw [← Nat.succ_mul, hlast, hcount, hzero, Nat.succ_eq_add_one, Nat.sub_zero,
        Nat.sub_add_cancel (Nat.zero_lt_of_lt hstart)]
    have hupper : (c.blockCount - 1).toNat * c.blockSize.toNat + 0 + c.blockSize.toNat ≤ _ :=
      h.upper (.erase (c.blockCount - 1)) ⟨hlt, (zero_add _).le⟩
    have hle : c.blockSize.toNat ≤ mtd.blockSize.toNat :=
      Nat.le_of_mul_le_mul_left (hmul ▸ hupper) (Nat.zero_lt_of_lt hstart)
    have hblock : ¬mtd.blockSize < lfsBlockSize := by
      intro hsmall
      rw [if_pos hsmall] at hmax
      exact Nat.not_le_of_lt (lt_def.mp hsmall) (hmax ▸ hle)
    rw [if_neg hblock] at hmax
    -- and its end has an offset
    have hexact := h.exact (.read (c.blockCount - 1) c.blockSize 0) ⟨hlt, le_rfl⟩
    have hsigned := hexact.symm.trans_lt toInt_lt
    refine ⟨BitVec.eq_of_toNat_eq hzero, BitVec.not_lt.mp hblock, ?_⟩
    rw [← hmax, ← hmul]
    exact_mod_cast hsigned
  · rintro ⟨hzero, hblock, hfit⟩
    rw [if_neg (BitVec.not_lt.mpr hblock)] at hmax
    replace hcount : c.blockCount.toNat = mtd.blockEnd.toNat := by simpa [hzero] using hcount
    rw [← hmax, ← hcount] at hfit
    refine ⟨fun op h => h.offset_eq hfit, fun op h => ?_, fun op h => ?_, fun op op' h h' hne => ?_⟩
    · simp [hzero]
    · rw [← hmax, ← hcount]
      exact h.end_le h.block
    · rcases lt_or_gt_of_ne fun heq => hne (eq_of_toNat_eq heq) with hlt | hlt
      · exact .inl ((h.end_le hlt).trans (le_add_right _ _))
      · exact .inr ((h'.end_le hlt).trans (le_add_right _ _))

theorem inside_iff_one_mib : MtdNor.Inside ⟨4096, 0, 256⟩ (lfsLoadConfig ⟨4096, 0, 256⟩) :=
  (inside_iff (by decide) (by decide)).mpr (by decide)

/-- The erasure of the first block of a partition that starts at the block 16 is outside of it, and
so is the one of the last block of a device with blocks of 512 bytes. -/
theorem erase_outside : Issued (lfsLoadConfig ⟨4096, 16, 32⟩) (.erase 0) ∧
      (FlashOp.erase 0).offset (lfsLoadConfig ⟨4096, 16, 32⟩) < 16 * 4096 ∧
    Issued (lfsLoadConfig ⟨512, 0, 8⟩) (.erase 7) ∧
      8 * 512 < (FlashOp.erase 7).offset (lfsLoadConfig ⟨512, 0, 8⟩) :=
  ⟨⟨by decide, by decide⟩, by decide, ⟨by decide, by decide⟩, by decide⟩

end RtThread
