import Mathlib.Data.BitVec
import Mathlib.Data.Nat.Log
import Mathlib.Tactic

/-!
# Table geometry

Capacity, mask and block size are three separate computations in the source: a table-driven
logarithm, a mask shifted from it, and a block stride derived from the pair size.  This file
states each as the code writes it and reads all of them back in natural-number arithmetic.
-/

namespace RobinHoodHashmap

/-! ## The logarithm table -/

/-- The macro `LT(n)`: sixteen copies of one entry. -/
def logTableRow (entry : BitVec 8) : List (BitVec 8) := List.replicate 16 entry

/-- `LogTable256`, a signed byte table whose entry at zero is `-1`. -/
def logTable256 : List (BitVec 8) :=
  [-1, 0, 1, 1, 2, 2, 2, 2, 3, 3, 3, 3, 3, 3, 3, 3] ++
    logTableRow 4 ++ logTableRow 5 ++ logTableRow 5 ++
    logTableRow 6 ++ logTableRow 6 ++ logTableRow 6 ++ logTableRow 6 ++
    logTableRow 7 ++ logTableRow 7 ++ logTableRow 7 ++ logTableRow 7 ++
    logTableRow 7 ++ logTableRow 7 ++ logTableRow 7 ++ logTableRow 7

/-- Read `LogTable256[index]`, promoted to the width of the result. -/
def logEntry (index : BitVec 32) : BitVec 32 := (logTable256.getD index.toNat 0).signExtend 32

/-- `log2`. -/
def log2 (v : BitVec 32) : BitVec 32 :=
  let tt := v >>> 16
  if tt ≠ 0 then
    let t := tt >>> 8
    if t ≠ 0 then 24 + logEntry t else 16 + logEntry tt
  else
    let t := v >>> 8
    if t ≠ 0 then 8 + logEntry t else logEntry v

theorem logEntry_toNat {index : BitVec 32} (positive : index.toNat ≠ 0)
    (inside : index.toNat < 256) : (logEntry index).toNat = Nat.log 2 index.toNat := by
  have table : ∀ n : Fin 256, n.val ≠ 0 →
      ((logTable256.getD n.val 0).signExtend 32).toNat = Nat.log2 n.val := by
    decide +kernel
  rw [logEntry, ← Nat.log2_eq_log_two]
  exact table ⟨index.toNat, inside⟩ positive

private theorem log_eq_add_of_div {v shift : Nat} (positive : v / 2 ^ shift ≠ 0) :
    Nat.log 2 v = shift + Nat.log 2 (v / 2 ^ shift) := by
  have large : 2 ^ shift ≤ v := by
    by_contra small
    exact positive (Nat.div_eq_of_lt (Nat.lt_of_not_le small))
  have shift_le : shift ≤ Nat.log 2 v := Nat.le_log_of_pow_le (by decide) large
  rw [Nat.log_div_base_pow]
  omega

private theorem offset_add_logEntry {v index : BitVec 32} {shift : Nat}
    (quotient : index.toNat = v.toNat / 2 ^ shift) (positive : index.toNat ≠ 0)
    (inside : index.toNat < 256) :
    (BitVec.ofNat 32 shift + logEntry index).toNat = Nat.log 2 v.toNat := by
  have total : Nat.log 2 v.toNat = shift + Nat.log 2 index.toNat := by
    rw [quotient] at positive ⊢
    exact log_eq_add_of_div positive
  have below : Nat.log 2 v.toNat < 32 := Nat.log_lt_of_lt_pow' (by decide) v.isLt
  rw [BitVec.toNat_add, logEntry_toNat positive inside, BitVec.toNat_ofNat]
  omega

/-- The table-driven logarithm is the integer logarithm of every nonzero operand. -/
theorem log2_toNat {v : BitVec 32} (nonzero : v ≠ 0#32) :
    (log2 v).toNat = Nat.log 2 v.toNat := by
  have v_lt := v.isLt
  have high_nat : (v >>> 16).toNat = v.toNat / 2 ^ 16 := by
    simp [Nat.shiftRight_eq_div_pow]
  have top_nat : (v >>> 16 >>> 8).toNat = v.toNat / 2 ^ 24 := by
    simp [Nat.shiftRight_eq_div_pow]
  have low_nat : (v >>> 8).toNat = v.toNat / 2 ^ 8 := by
    simp [Nat.shiftRight_eq_div_pow]
  have v_pos : v.toNat ≠ 0 := by
    simpa [BitVec.toNat_eq] using nonzero
  have zero_iff : ∀ w : BitVec 32, w ≠ 0 ↔ w.toNat ≠ 0 := by
    intro w
    simp [BitVec.toNat_eq]
  simp only [log2, zero_iff]
  split_ifs with high top low
  · exact offset_add_logEntry top_nat top (by omega)
  · exact offset_add_logEntry high_nat high (by omega)
  · exact offset_add_logEntry low_nat low (by omega)
  · have unshifted : v.toNat = v.toNat / 2 ^ 0 := by simp
    simpa using offset_add_logEntry unshifted v_pos (by omega)

/-- `log2(0)` is the table entry `-1` widened to `uint32_t`. -/
theorem log2_zero : log2 0#32 = 0xffffffff#32 := by decide +kernel

/-! ## Masks -/

/-- The constructor's `(1ull << _max_offset) - 1`, truncated to the field. -/
def constructorMask (maxOffset : BitVec 32) : BitVec 32 :=
  ((1#64 <<< maxOffset.toNat) - 1#64).setWidth 32

/-- `_resize`'s `(1 << _max_offset) - 1` in wrapping `int` arithmetic. -/
def resizeMask (maxOffset : BitVec 32) : BitVec 32 := (1#32 <<< maxOffset.toNat) - 1#32

private theorem one_shiftLeft_sub_one_toNat {width offset : Nat} (inside : offset < width) :
    ((BitVec.ofNat width 1 <<< offset) - BitVec.ofNat width 1).toNat = 2 ^ offset - 1 := by
  have power_lt : 2 ^ offset < 2 ^ width := Nat.pow_lt_pow_right (by omega) inside
  have one_le : 1 ≤ 2 ^ offset := Nat.one_le_two_pow
  have shifted : (BitVec.ofNat width 1 <<< offset).toNat = 2 ^ offset := by
    rw [BitVec.toNat_shiftLeft, BitVec.toNat_ofNat, Nat.shiftLeft_eq,
      Nat.mod_eq_of_lt (a := 1) (by omega), one_mul, Nat.mod_eq_of_lt power_lt]
  rw [BitVec.toNat_sub_of_le]
  · rw [shifted, BitVec.toNat_ofNat, Nat.mod_eq_of_lt (by omega)]
  · rw [BitVec.le_def, shifted, BitVec.toNat_ofNat, Nat.mod_eq_of_lt (by omega)]
    exact one_le

theorem constructorMask_toNat {maxOffset : BitVec 32} (inside : maxOffset.toNat < 32) :
    (constructorMask maxOffset).toNat = 2 ^ maxOffset.toNat - 1 := by
  have power_lt : 2 ^ maxOffset.toNat < 2 ^ 32 := Nat.pow_lt_pow_right (by decide) inside
  rw [constructorMask, BitVec.toNat_setWidth, one_shiftLeft_sub_one_toNat (by omega),
    Nat.mod_eq_of_lt (by omega)]

theorem resizeMask_toNat {maxOffset : BitVec 32} (inside : maxOffset.toNat < 32) :
    (resizeMask maxOffset).toNat = 2 ^ maxOffset.toNat - 1 :=
  one_shiftLeft_sub_one_toNat inside

theorem log2_lt {capacity : BitVec 32} (nonzero : capacity ≠ 0#32) :
    (log2 capacity).toNat < 32 := by
  rw [log2_toNat nonzero]
  exact Nat.log_lt_of_lt_pow' (by decide) capacity.isLt

/-! ## Home positions -/

/-- `hash & _bit_mask`. -/
def home (hash : BitVec 64) (bitMask : BitVec 32) : BitVec 64 := hash &&& bitMask.setWidth 64

/-- `home & 0x1f`. -/
def homeIndex (home : BitVec 64) : BitVec 64 := home &&& 0x1f#64

/-- `home >> 5`. -/
def nthHeaderBlock (home : BitVec 64) : BitVec 64 := home >>> 5

/-- The block addressed under a mask of `exponent` low bits, `(hash & (2^exponent - 1)) >> 5`. -/
def blockUnder (exponent : Nat) (hash : BitVec 64) : Nat :=
  (hash.toNat &&& (2 ^ exponent - 1)) >>> 5

theorem blockUnder_eq (exponent : Nat) (hash : BitVec 64) :
    blockUnder exponent hash = hash.toNat % 2 ^ exponent / 32 := by
  rw [blockUnder, Nat.and_two_pow_sub_one_eq_mod, Nat.shiftRight_eq_div_pow]

theorem home_toNat {bitMask : BitVec 32} {exponent : Nat}
    (mask : bitMask.toNat = 2 ^ exponent - 1) (hash : BitVec 64) :
    (home hash bitMask).toNat = hash.toNat % 2 ^ exponent := by
  have mask_lt := bitMask.isLt
  rw [home, BitVec.toNat_and, BitVec.toNat_setWidth, Nat.mod_eq_of_lt (by omega), mask,
    Nat.and_two_pow_sub_one_eq_mod]

theorem homeIndex_toNat (home : BitVec 64) : (homeIndex home).toNat = home.toNat % 32 := by
  rw [homeIndex, BitVec.toNat_and, show (0x1f#64).toNat = 2 ^ 5 - 1 by rfl,
    Nat.and_two_pow_sub_one_eq_mod]

theorem nthHeaderBlock_toNat {bitMask : BitVec 32} {exponent : Nat}
    (mask : bitMask.toNat = 2 ^ exponent - 1) (hash : BitVec 64) :
    (nthHeaderBlock (home hash bitMask)).toNat = blockUnder exponent hash := by
  rw [nthHeaderBlock, BitVec.toNat_ushiftRight, home_toNat mask, blockUnder,
    Nat.and_two_pow_sub_one_eq_mod]

theorem two_pow_div_thirtyTwo {exponent : Nat} (wide : 5 ≤ exponent) :
    2 ^ exponent / 32 = 2 ^ (exponent - 5) :=
  Nat.pow_div wide (by decide)

/-- The block index is the hash without its low five bits, modulo the number of blocks. -/
theorem blockUnder_eq_mod {exponent : Nat} (wide : 5 ≤ exponent) (hash : BitVec 64) :
    blockUnder exponent hash = hash.toNat / 32 % 2 ^ (exponent - 5) := by
  have blocks : 2 ^ exponent = 32 * 2 ^ (exponent - 5) := by
    rw [show 32 = 2 ^ 5 by rfl, ← Nat.pow_add, Nat.add_sub_cancel' wide]
  rw [blockUnder_eq, blocks, Nat.mod_mul_right_div_self]

theorem blockUnder_lt {exponent : Nat} (wide : 5 ≤ exponent) (hash : BitVec 64) :
    blockUnder exponent hash < 2 ^ (exponent - 5) := by
  rw [blockUnder_eq_mod wide]
  exact Nat.mod_lt _ (Nat.two_pow_pos _)

/-- A wider mask refines the blocks of a narrower one. -/
theorem blockUnder_add_mod {exponent : Nat} (wide : 5 ≤ exponent) (more : Nat) (hash : BitVec 64) :
    blockUnder (exponent + more) hash % 2 ^ (exponent - 5) = blockUnder exponent hash := by
  rw [blockUnder_eq_mod (by omega), blockUnder_eq_mod wide,
    show exponent + more - 5 = exponent - 5 + more by omega, Nat.pow_add, Nat.mod_mul_right_mod]

/-! ## Block layout -/

/-- `UINT_SIZE`: one header and one pair. -/
def uintSize (pairSize : Nat) : Nat := 2 + pairSize

/-- `MEM_BLOCK_SIZE`: two header registers and thirty-two pairs. -/
def memBlockSize (pairSize : Nat) : Nat := (32 <<< 1) + (pairSize <<< 5)

theorem uintSize_pos (pairSize : Nat) : 0 < uintSize pairSize := by
  rw [uintSize]
  omega

theorem memBlockSize_eq (pairSize : Nat) : memBlockSize pairSize = 32 * uintSize pairSize := by
  simp only [memBlockSize, uintSize, Nat.shiftLeft_eq]
  omega

/-- A block fits in the allocation exactly when its thirty-two slots fit in the capacity. -/
theorem block_fits_iff (pairSize index capacity : Nat) :
    (index + 1) * memBlockSize pairSize ≤ capacity * uintSize pairSize ↔
      (index + 1) * 32 ≤ capacity := by
  rw [memBlockSize_eq, ← Nat.mul_assoc]
  exact Nat.mul_le_mul_right_iff (uintSize_pos pairSize)

/-- Whole blocks in an allocation of `capacity * UINT_SIZE` bytes. -/
theorem wholeBlocks_eq (pairSize capacity : Nat) :
    capacity * uintSize pairSize / memBlockSize pairSize = capacity / 32 := by
  rw [memBlockSize_eq]
  exact Nat.mul_div_mul_right capacity 32 (uintSize_pos pairSize)

end RobinHoodHashmap
