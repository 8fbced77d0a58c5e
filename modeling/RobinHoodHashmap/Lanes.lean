import Mathlib

/-!
# Sixteen-bit lane vectors

A 256-bit register is sixteen lanes of sixteen bits.  This file gives the lane-wise AVX2
operations and reads a comparison result back as a predicate on lanes: the byte mask and its
trailing-zero count together select the first lane at which the comparison holds.
-/

namespace Avx2

/-- A `__m256i` register, lane `0` lowest in memory. -/
abbrev Lanes := Fin 16 → BitVec 16

/-- `_mm256_setzero_si256`. -/
def setzeroSi256 : Lanes := fun _ => 0#16

/-- `_mm256_set1_epi16`: the same value in every lane. -/
def set1Epi16 (value : BitVec 16) : Lanes := fun _ => value

/-- `_mm256_cmpeq_epi16`: all ones in the lanes that agree, zero elsewhere. -/
def cmpeqEpi16 (left right : Lanes) : Lanes :=
  fun lane => if left lane = right lane then 0xffff#16 else 0#16

/-- `_mm256_sub_epi16`: lane-wise wrapping subtraction. -/
def subEpi16 (left right : Lanes) : Lanes := fun lane => left lane - right lane

/-- `_mm256_or_si256`. -/
def orSi256 (left right : Lanes) : Lanes := fun lane => left lane ||| right lane

/-- `_mm256_and_epi32`, a bitwise conjunction of the whole register. -/
def andEpi32 (left right : Lanes) : Lanes := fun lane => left lane &&& right lane

/-- `_mm256_testz_si256`: whether the bitwise conjunction of the two registers is zero. -/
def testzSi256 (left right : Lanes) : Bool :=
  (List.finRange 16).all fun lane => left lane &&& right lane == 0#16

/-- `_mm256_movemask_epi8`: the top bit of each of the thirty-two bytes. -/
def movemaskEpi8 (value : Lanes) : BitVec 32 :=
  BitVec.ofFnLE fun byte : Fin 32 =>
    (value ⟨byte / 2, by omega⟩).getLsbD (if byte.val % 2 = 0 then 7 else 15)

/-- `_tzcnt_u32`, with the value `32` on a zero operand. -/
def tzcntU32 (mask : BitVec 32) : BitVec 32 := mask.ctz

/-- Store zero through a `uint16_t` pointer into one lane. -/
def clearLane (value : Lanes) (lane : Fin 16) : Lanes := Function.update value lane 0#16

/-! ## Comparison results as predicates -/

/-- The comparison result that holds exactly on the selected lanes. -/
def laneMask (selected : Fin 16 → Bool) : Lanes :=
  fun lane => if selected lane then 0xffff#16 else 0#16

theorem cmpeqEpi16_eq_laneMask (left right : Lanes) :
    cmpeqEpi16 left right = laneMask fun lane => left lane == right lane := by
  funext lane
  simp [cmpeqEpi16, laneMask]

theorem clearLane_laneMask (selected : Fin 16 → Bool) (lane : Fin 16) :
    clearLane (laneMask selected) lane = laneMask (Function.update selected lane false) := by
  funext other
  by_cases same : other = lane
  · subst other
    simp [clearLane, laneMask]
  · simp [clearLane, laneMask, same]

theorem testzSi256_laneMask (selected : Fin 16 → Bool) :
    testzSi256 (laneMask selected) (laneMask selected) = true ↔
      ∀ lane, selected lane = false := by
  simp only [testzSi256, List.all_eq_true, List.mem_finRange, forall_const, beq_iff_eq]
  refine forall_congr' fun lane => ?_
  cases selected_lane : selected lane <;> simp [laneMask, selected_lane]

theorem movemaskEpi8_laneMask_bit (selected : Fin 16 → Bool) (byte : Nat) (inside : byte < 32) :
    (movemaskEpi8 (laneMask selected)).getLsbD byte = selected ⟨byte / 2, by omega⟩ := by
  rw [movemaskEpi8, BitVec.getLsbD_ofFnLE, dif_pos inside]
  dsimp only
  by_cases low : byte % 2 = 0 <;>
    cases chosen : selected ⟨byte / 2, by omega⟩ <;> simp [laneMask, low, chosen]

theorem movemaskEpi8_laneMask_eq_zero_iff (selected : Fin 16 → Bool) :
    movemaskEpi8 (laneMask selected) = 0#32 ↔ ∀ lane, selected lane = false := by
  constructor
  · intro empty lane
    have bit := movemaskEpi8_laneMask_bit selected (2 * lane.val) (by omega)
    rw [empty] at bit
    simpa using bit.symm
  · intro none_selected
    apply BitVec.eq_of_getLsbD_eq
    intro byte inside
    rw [movemaskEpi8_laneMask_bit selected byte inside, none_selected]
    simp

/-! ## The first selected lane -/

/-- Index of the least selected lane, or `16` when no lane is selected. -/
def firstLane (selected : Fin 16 → Bool) : Nat :=
  (Fin.find? selected).elim 16 Fin.val

theorem firstLane_eq_of_least {selected : Fin 16 → Bool} {lane : Fin 16}
    (chosen : selected lane = true) (least : ∀ earlier < lane, selected earlier = false) :
    firstLane selected = lane := by
  have found : Fin.find? selected = some lane := Fin.find?_eq_some_iff.mpr ⟨chosen, least⟩
  simp [firstLane, found]

theorem firstLane_eq_sixteen_iff (selected : Fin 16 → Bool) :
    firstLane selected = 16 ↔ ∀ lane, selected lane = false := by
  rw [← Fin.find?_eq_none_iff, firstLane]
  cases found : Fin.find? selected with
  | none => simp
  | some lane => simpa using Nat.ne_of_lt lane.isLt

theorem tzcntU32_zero : (tzcntU32 0#32).toNat = 32 := by decide +kernel

/-- Half the trailing-zero count of the byte mask is the first selected lane. -/
theorem tzcntU32_movemaskEpi8_half (selected : Fin 16 → Bool) :
    (tzcntU32 (movemaskEpi8 (laneMask selected)) >>> 1).toNat = firstLane selected := by
  rw [BitVec.toNat_ushiftRight, Nat.shiftRight_eq_div_pow, Nat.pow_one]
  by_cases empty : movemaskEpi8 (laneMask selected) = 0#32
  · rw [empty, tzcntU32_zero]
    exact ((firstLane_eq_sixteen_iff selected).mpr
      ((movemaskEpi8_laneMask_eq_zero_iff selected).mp empty)).symm
  · have below : (tzcntU32 (movemaskEpi8 (laneMask selected))).toNat < 32 := by
      simpa [tzcntU32, BitVec.lt_def] using BitVec.ctz_lt_iff_ne_zero.mpr empty
    have chosen : selected ⟨(tzcntU32 (movemaskEpi8 (laneMask selected))).toNat / 2, by omega⟩ =
        true := by
      rw [← movemaskEpi8_laneMask_bit selected _ below]
      exact BitVec.getLsbD_true_ctz_of_ne_zero empty
    refine (firstLane_eq_of_least chosen fun earlier before => ?_).symm
    have twice : 2 * earlier.val < (tzcntU32 (movemaskEpi8 (laneMask selected))).toNat := by
      simp only [Fin.lt_def] at before
      omega
    have clear := BitVec.getLsbD_false_of_lt_ctz twice
    rw [movemaskEpi8_laneMask_bit selected _ (by omega)] at clear
    simpa using clear

end Avx2
