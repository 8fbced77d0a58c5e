import RobinHoodHashmap.Geometry
import RobinHoodHashmap.Lanes

/-!
# Headers and needles

A slot header packs the distance from the home slot, ten hash bits and an occupancy bit.  It is
encoded once by `_make_header`, through a 64-bit subtraction and an `int` shift, and once lane by
lane by the two needles, through 16-bit subtraction.  Both encoders reach the same word.
-/

namespace RobinHoodHashmap

open Avx2

/-- `_make_header`: the shift is done in `int`, the disjunctions in `uint64_t`. -/
def makeHeader (distanceFromHome : BitVec 16) (hash : BitVec 64) (empty : BitVec 8) : BitVec 16 :=
  ((distanceFromHome.setWidth 32 <<< 11).signExtend 64 ||| (hash &&& 0x7fe#64) |||
    empty.setWidth 64).setWidth 16

/-- The header written for a free slot, `_make_header(empty_idx - home_index, hash, 1)`. -/
def slotHeader (emptyIdx : BitVec 32) (homeIndex hash : BitVec 64) : BitVec 16 :=
  makeHeader ((emptyIdx.setWidth 64 - homeIndex).setWidth 16) hash 1#8

/-- `_mm256_set_epi16` of the shifts `(base + 15) << 11` down to `base << 11`. -/
def shiftedIndices (base : Nat) : Lanes :=
  fun lane => (BitVec.ofNat 32 (base + lane.val) <<< 11).setWidth 16

/-- The computation shared by the two needles, which differ in the first slot they cover. -/
def needle (base : Nat) (homeIdx : BitVec 16) (hash : BitVec 64) : Lanes :=
  let lower := hash &&& 0x7fe#64 ||| 0x01#64
  let m := subEpi16 (shiftedIndices base)
    (set1Epi16 ((homeIdx.setWidth 32 <<< 11).setWidth 16))
  orSi256 m (set1Epi16 (lower.setWidth 16))

/-- `get_first_needle`. -/
def getFirstNeedle (homeIdx : BitVec 16) (hash : BitVec 64) : Lanes := needle 0 homeIdx hash

/-- `get_second_needle`. -/
def getSecondNeedle (homeIdx : BitVec 16) (hash : BitVec 64) : Lanes := needle 16 homeIdx hash

/-- Lane of the needle pair that is compared with the header of a slot. -/
def needleLane (homeIdx : BitVec 16) (hash : BitVec 64) (slot : Fin 32) : BitVec 16 :=
  if first : slot.val < 16 then getFirstNeedle homeIdx hash ⟨slot, first⟩
  else getSecondNeedle homeIdx hash ⟨slot - 16, by omega⟩

/-! ## The common header word -/

/-- The header of a slot for a key with this hash: distance modulo 32, ten hash bits, one. -/
def headerOf (slot : Fin 32) (home hash : BitVec 64) : BitVec 16 :=
  (BitVec.ofNat 16 (((slot.val : Int) - home.toNat) % 32).toNat <<< 11) |||
    (hash &&& 0x7fe#64).setWidth 16 ||| 1#16

theorem headerOf_bit_zero (slot : Fin 32) (home hash : BitVec 64) :
    (headerOf slot home hash).getLsbD 0 = true := by
  simp [headerOf]

theorem headerOf_ne_zero (slot : Fin 32) (home hash : BitVec 64) :
    headerOf slot home hash ≠ 0#16 := by
  intro zero
  have bit := headerOf_bit_zero slot home hash
  simp [zero] at bit

/-- Only the distance modulo 32 survives the shift into the top five bits. -/
private theorem shiftLeft_eleven_eq {distance : BitVec 16} {slot : Fin 32} {home : BitVec 64}
    (congruent : (distance.toNat : Int) % 32 = ((slot.val : Int) - home.toNat) % 32) :
    distance <<< 11 = BitVec.ofNat 16 (((slot.val : Int) - home.toNat) % 32).toNat <<< 11 := by
  apply BitVec.eq_of_toNat_eq
  simp only [BitVec.toNat_shiftLeft, BitVec.toNat_ofNat, Nat.shiftLeft_eq]
  rw [← congruent]
  omega

private theorem setWidth_int_shift (distance : BitVec 16) :
    ((distance.setWidth 32 <<< 11).signExtend 64).setWidth 16 = distance <<< 11 := by
  apply BitVec.eq_of_getLsbD_eq
  intro bit inside
  have wide : bit < 64 := by omega
  have narrow : bit < 32 := by omega
  simp only [BitVec.getLsbD_setWidth, BitVec.getLsbD_signExtend, BitVec.getLsbD_shiftLeft,
    inside, wide, narrow, decide_true, if_true, Bool.true_and]
  cases decide (bit < 11) with
  | true => rfl
  | false =>
      have shifted : bit - 11 < 32 := by omega
      simp [shifted]

theorem slotHeader_eq_headerOf {emptyIdx : BitVec 32} {slot : Fin 32}
    (slot_eq : emptyIdx.toNat = slot) (home hash : BitVec 64) :
    slotHeader emptyIdx (homeIndex home) hash = headerOf slot home hash := by
  have congruent :
      ((((emptyIdx.setWidth 64 - homeIndex home).setWidth 16).toNat : Nat) : Int) % 32 =
        ((slot.val : Int) - home.toNat) % 32 := by
    rw [BitVec.toNat_setWidth, BitVec.toNat_sub, homeIndex_toNat, BitVec.toNat_setWidth, slot_eq]
    omega
  rw [slotHeader, makeHeader, BitVec.setWidth_or, BitVec.setWidth_or, setWidth_int_shift,
    shiftLeft_eleven_eq congruent, headerOf]
  rfl

/-- Lane `lane` of a needle is the header a slot at `base + lane` would carry. -/
theorem needle_eq_headerOf {base : Nat} {lane : Fin 16} {slot : Fin 32}
    (slot_eq : slot.val = base + lane.val) (home hash : BitVec 64) :
    needle base ((homeIndex home).setWidth 16) hash lane = headerOf slot home hash := by
  have index_nat : ((homeIndex home).setWidth 16).toNat = home.toNat % 32 := by
    rw [BitVec.toNat_setWidth, homeIndex_toNat]
    omega
  have distance : shiftedIndices base lane -
      (((homeIndex home).setWidth 16).setWidth 32 <<< 11).setWidth 16 =
        (BitVec.ofNat 16 slot.val - (homeIndex home).setWidth 16) <<< 11 := by
    apply BitVec.eq_of_toNat_eq
    simp only [shiftedIndices, BitVec.toNat_sub, BitVec.toNat_setWidth, BitVec.toNat_shiftLeft,
      BitVec.toNat_ofNat, Nat.shiftLeft_eq, ← slot_eq, homeIndex_toNat]
    omega
  have congruent :
      (((BitVec.ofNat 16 slot.val - (homeIndex home).setWidth 16).toNat : Nat) : Int) % 32 =
        ((slot.val : Int) - home.toNat) % 32 := by
    rw [BitVec.toNat_sub, index_nat, BitVec.toNat_ofNat]
    omega
  simp only [needle, orSi256, subEpi16, set1Epi16]
  rw [distance, shiftLeft_eleven_eq congruent, headerOf, BitVec.setWidth_or, BitVec.or_assoc]
  rfl

theorem needleLane_eq_headerOf (home hash : BitVec 64) (slot : Fin 32) :
    needleLane ((homeIndex home).setWidth 16) hash slot = headerOf slot home hash := by
  unfold needleLane
  split
  · exact needle_eq_headerOf (by simp) home hash
  · exact needle_eq_headerOf (by simp only; omega) home hash

/-! ## What a header tells -/

private theorem getLsbD_tagMask (bit : Nat) :
    (0x7fe#64).getLsbD bit = decide (1 ≤ bit ∧ bit ≤ 10) := by
  have low : ∀ bit : Fin 64, (0x7fe#64).getLsbD bit = decide (1 ≤ bit.val ∧ bit.val ≤ 10) := by
    decide
  by_cases inside : bit < 64
  · exact low ⟨bit, inside⟩
  · have outside : ¬(1 ≤ bit ∧ bit ≤ 10) := by omega
    rw [BitVec.getLsbD_of_ge _ _ (by omega), decide_eq_false outside]

theorem tag_eq_iff (hash hash' : BitVec 64) : hash &&& 0x7fe#64 = hash' &&& 0x7fe#64 ↔
    ∀ bit, 1 ≤ bit → bit ≤ 10 → hash.getLsbD bit = hash'.getLsbD bit := by
  constructor
  · intro same bit low high
    have bits := congrArg (·.getLsbD bit) same
    simpa [BitVec.getLsbD_and, getLsbD_tagMask, low, high] using bits
  · intro same_tag
    apply BitVec.eq_of_getLsbD_eq
    intro bit _
    rw [BitVec.getLsbD_and, BitVec.getLsbD_and, getLsbD_tagMask]
    by_cases tag : 1 ≤ bit ∧ bit ≤ 10
    · rw [same_tag bit tag.1 tag.2]
    · simp [tag]

theorem getLsbD_headerOf_tag (slot : Fin 32) (home hash : BitVec 64) {bit : Nat} (low : 1 ≤ bit)
    (high : bit ≤ 10) : (headerOf slot home hash).getLsbD bit = hash.getLsbD bit := by
  have below : bit < 11 := by omega
  have inside : bit < 16 := by omega
  have nonzero : bit ≠ 0 := by omega
  simp only [headerOf, BitVec.getLsbD_or, BitVec.getLsbD_shiftLeft, BitVec.getLsbD_setWidth,
    BitVec.getLsbD_and, getLsbD_tagMask, BitVec.getLsbD_one]
  simp [below, inside, nonzero, low, high]

theorem getLsbD_headerOf_distance (slot : Fin 32) (home hash : BitVec 64) {bit : Nat}
    (inside : bit < 5) : (headerOf slot home hash).getLsbD (bit + 11) =
      (((slot.val : Int) - home.toNat) % 32).toNat.testBit bit := by
  have wide : bit + 11 < 16 := by omega
  have narrow : bit < 16 := by omega
  have beyond : ¬bit + 11 ≤ 10 := by omega
  have distance : (BitVec.ofNat 16 (((slot.val : Int) - home.toNat) % 32).toNat).getLsbD bit =
      (((slot.val : Int) - home.toNat) % 32).toNat.testBit bit := by
    rw [BitVec.getLsbD_ofNat, decide_eq_true narrow, Bool.true_and]
  simp only [headerOf, BitVec.getLsbD_or, BitVec.getLsbD_shiftLeft, BitVec.getLsbD_setWidth,
    BitVec.getLsbD_and, getLsbD_tagMask, BitVec.getLsbD_one, Nat.add_sub_cancel, distance]
  simp [wide, beyond]

theorem distance_eq_iff (slot : Fin 32) (home home' : BitVec 64) :
    (((slot.val : Int) - home.toNat) % 32).toNat = (((slot.val : Int) - home'.toNat) % 32).toNat ↔
      home.toNat % 32 = home'.toNat % 32 := by
  omega

/-- A header determines the home slot and the ten hash bits, and nothing else. -/
theorem headerOf_eq_iff (slot : Fin 32) (home home' hash hash' : BitVec 64) :
    headerOf slot home hash = headerOf slot home' hash' ↔
      home.toNat % 32 = home'.toNat % 32 ∧
        ∀ bit, 1 ≤ bit → bit ≤ 10 → hash.getLsbD bit = hash'.getLsbD bit := by
  constructor
  · intro same
    refine ⟨(distance_eq_iff slot home home').mp (Nat.eq_of_testBit_eq fun bit => ?_),
      fun bit low high => ?_⟩
    · by_cases inside : bit < 5
      · rw [← getLsbD_headerOf_distance slot home hash inside, same,
          getLsbD_headerOf_distance slot home' hash' inside]
      · have power_le : 2 ^ 5 ≤ 2 ^ bit := Nat.pow_le_pow_right (by decide) (by omega)
        rw [Nat.testBit_lt_two_pow (by omega), Nat.testBit_lt_two_pow (by omega)]
    · rw [← getLsbD_headerOf_tag slot home hash low high, same,
        getLsbD_headerOf_tag slot home' hash' low high]
  · rintro ⟨same_home, same_tag⟩
    rw [headerOf, headerOf, (distance_eq_iff slot home home').mpr same_home,
      (tag_eq_iff hash hash').mpr same_tag]

/-- The header written for a slot is the needle lane of another hash exactly when both hashes have
the same home slot and agree on bits one to ten; a zero header is no needle lane. -/
theorem slotHeader_eq_needleLane_iff (hash hash' : BitVec 64) (slot : Fin 32) :
    (slotHeader (BitVec.ofNat 32 slot) (homeIndex hash) hash =
        needleLane ((homeIndex hash').setWidth 16) hash' slot ↔
      hash.toNat % 32 = hash'.toNat % 32 ∧
        ∀ bit, 1 ≤ bit → bit ≤ 10 → hash.getLsbD bit = hash'.getLsbD bit) ∧
      needleLane ((homeIndex hash').setWidth 16) hash' slot ≠ 0#16 := by
  have slot_eq : (BitVec.ofNat 32 slot.val).toNat = slot := by
    rw [BitVec.toNat_ofNat]
    omega
  rw [slotHeader_eq_headerOf slot_eq, needleLane_eq_headerOf]
  exact ⟨headerOf_eq_iff slot hash hash' hash hash', headerOf_ne_zero slot hash' hash'⟩

end RobinHoodHashmap
