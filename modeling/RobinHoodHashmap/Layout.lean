import RobinHoodHashmap.Operations

/-!
# Byte layout

How the bytes of a buffer are read as blocks of headers and pairs.  The blocks of a table of some
capacity are determined by the bytes its capacity accounts for.
-/

namespace RobinHoodHashmap

variable {κ υ : Type}

/-- What the class template uses of its type arguments, with the byte representation of pairs. -/
structure Layout (κ υ : Type) extends Traits κ υ where
  /-- The pair that `sizeof(key_value_pair)` bytes represent. -/
  decodePair : List (BitVec 8) → KeyValuePair κ υ
  /-- Zero bytes represent the zero pair. -/
  decodePair_zero : decodePair (List.replicate pairSize 0#8) = zeroPair

/-- Read a header, least significant byte first. -/
def headerAt (bytes : List (BitVec 8)) (offset : Nat) : BitVec 16 :=
  bytes.getD (offset + 1) 0#8 ++ bytes.getD offset 0#8

/-- Read the bytes of a range. -/
def bytesAt (bytes : List (BitVec 8)) (offset length : Nat) : List (BitVec 8) :=
  (bytes.drop offset).take length

/-- Read block `nth`: sixty-four bytes of headers, then the pairs. -/
def blockAt (L : Layout κ υ) (bytes : List (BitVec 8)) (nth : Nat) : Block κ υ where
  header slot := headerAt bytes (nth * memBlockSize L.pairSize + 2 * slot)
  pair slot := L.decodePair
    (bytesAt bytes (nth * memBlockSize L.pairSize + 64 + slot * L.pairSize) L.pairSize)

/-- Read the whole blocks of a buffer for `capacity` slots. -/
def blocksOf (L : Layout κ υ) (capacity : BitVec 32) (bytes : List (BitVec 8)) : List (Block κ υ) :=
  (List.range (capacity.toNat / 32)).map (blockAt L bytes)

@[simp] theorem length_blocksOf (L : Layout κ υ) (capacity : BitVec 32) (bytes : List (BitVec 8)) :
    (blocksOf L capacity bytes).length = capacity.toNat / 32 := by
  simp [blocksOf]

theorem headerAt_take {bytes : List (BitVec 8)} {offset size : Nat} (inside : offset + 1 < size) :
    headerAt (bytes.take size) offset = headerAt bytes offset := by
  have first : offset < size := by omega
  simp [headerAt, List.getD_eq_getElem?_getD, inside, first]

theorem bytesAt_take {bytes : List (BitVec 8)} {offset length size : Nat}
    (inside : offset + length ≤ size) :
    bytesAt (bytes.take size) offset length = bytesAt bytes offset length := by
  rw [bytesAt, bytesAt, List.drop_take, List.take_take, Nat.min_eq_left (by omega)]

theorem headerAt_zero (size offset : Nat) : headerAt (List.replicate size 0#8) offset = 0#16 := by
  have byte : ∀ nth, (List.replicate size 0#8).getD nth 0#8 = 0#8 := by
    intro nth
    rw [List.getD_eq_getElem?_getD, List.getElem?_replicate]
    split <;> rfl
  rw [headerAt, byte, byte]
  rfl

theorem bytesAt_zero {size offset length : Nat} (inside : offset + length ≤ size) :
    bytesAt (List.replicate size 0#8) offset length = List.replicate length 0#8 := by
  rw [bytesAt, List.drop_replicate, List.take_replicate, Nat.min_eq_left (by omega)]

/-- A block is read from its own bytes. -/
theorem blockAt_take (L : Layout κ υ) {bytes : List (BitVec 8)} {nth size : Nat}
    (inside : (nth + 1) * memBlockSize L.pairSize ≤ size) :
    blockAt L (bytes.take size) nth = blockAt L bytes nth := by
  have stride : (nth + 1) * memBlockSize L.pairSize =
      nth * memBlockSize L.pairSize + memBlockSize L.pairSize := Nat.succ_mul _ _
  have block_size : memBlockSize L.pairSize = 64 + 32 * L.pairSize := by
    rw [memBlockSize_eq, uintSize]
    omega
  apply Block.ext
  · funext slot
    exact headerAt_take (by omega)
  · funext slot
    have slots : (slot.val + 1) * L.pairSize ≤ 32 * L.pairSize :=
      Nat.mul_le_mul_right _ slot.isLt
    rw [Nat.succ_mul] at slots
    exact congrArg L.decodePair (bytesAt_take (by omega))

/-- The blocks of a table are read from the bytes its capacity accounts for. -/
theorem blocksOf_take (L : Layout κ υ) (capacity : BitVec 32) (bytes : List (BitVec 8)) :
    blocksOf L capacity (bytes.take (capacity.toNat * uintSize L.pairSize)) =
      blocksOf L capacity bytes := by
  apply List.map_congr_left
  intro nth member
  have inside := List.mem_range.mp member
  apply blockAt_take
  rw [block_fits_iff]
  omega

/-- Zeroed bytes hold the blocks the constructor allocates. -/
theorem blocksOf_zero (L : Layout κ υ) (capacity : BitVec 32) :
    blocksOf L capacity (List.replicate (capacity.toNat * uintSize L.pairSize) 0#8) =
      calloc L.toTraits capacity := by
  have zeroed : ∀ nth < capacity.toNat / 32,
      blockAt L (List.replicate (capacity.toNat * uintSize L.pairSize) 0#8) nth =
        Block.zero L.toTraits := by
    intro nth inside
    have fits : (nth + 1) * memBlockSize L.pairSize ≤ capacity.toNat * uintSize L.pairSize := by
      rw [block_fits_iff]
      omega
    have stride : (nth + 1) * memBlockSize L.pairSize =
        nth * memBlockSize L.pairSize + (64 + 32 * L.pairSize) := by
      rw [Nat.succ_mul, memBlockSize_eq, uintSize]
      omega
    apply Block.ext
    · funext slot
      exact headerAt_zero _ _
    · funext slot
      have slots : (slot.val + 1) * L.pairSize ≤ 32 * L.pairSize :=
        Nat.mul_le_mul_right _ slot.isLt
      rw [Nat.succ_mul] at slots
      exact (congrArg L.decodePair (bytesAt_zero (by omega))).trans L.decodePair_zero
  apply List.ext_getElem
  · simp [length_calloc]
  · intro nth inside _
    rw [length_blocksOf] at inside
    simp [blocksOf, calloc, zeroed nth inside]

/-- Eight bytes as a number, least significant byte first. -/
def decodeWord (bytes : List (BitVec 8)) : BitVec 64 :=
  bytes.foldr (fun byte word => word <<< 8 ||| byte.setWidth 64) 0#64

/-- The eight bytes of a number, least significant byte first. -/
def encodeWord (word : BitVec 64) : List (BitVec 8) :=
  (List.range 8).map fun nth => (word >>> (8 * nth)).setWidth 8

/-- The bits of a number read from bytes. -/
theorem getLsbD_decodeWord (bytes : List (BitVec 8)) {bit : Nat} (inside : bit < 64) :
    (decodeWord bytes).getLsbD bit = (bytes.getD (bit / 8) 0#8).getLsbD (bit % 8) := by
  induction bytes generalizing bit with
  | nil => simp [decodeWord]
  | cons byte bytes induction =>
      have unfolded : decodeWord (byte :: bytes) = decodeWord bytes <<< 8 ||| byte.setWidth 64 := rfl
      rw [unfolded, BitVec.getLsbD_or, BitVec.getLsbD_shiftLeft, BitVec.getLsbD_setWidth]
      by_cases low : bit < 8
      · simp [low, inside, Nat.div_eq_of_lt low, Nat.mod_eq_of_lt low]
      · obtain ⟨rest, rfl⟩ := Nat.exists_eq_add_of_le (Nat.le_of_not_lt low)
        have quotient : (8 + rest) / 8 = rest / 8 + 1 := by omega
        have remainder : (8 + rest) % 8 = rest % 8 := by omega
        simp [inside, quotient, remainder, induction (show rest < 64 by omega)]

theorem decodeWord_encodeWord (word : BitVec 64) : decodeWord (encodeWord word) = word := by
  apply BitVec.eq_of_getLsbD_eq
  intro bit inside
  have byte : bit / 8 < 8 := by omega
  have lane : bit % 8 < 8 := by omega
  rw [getLsbD_decodeWord _ inside, encodeWord, List.getD_eq_getElem?_getD, List.getElem?_map,
    List.getElem?_range byte]
  simp [lane, Nat.div_add_mod]

/-- `tempHash` with pairs of two `uint64_t`. -/
def tempLayout : Layout (BitVec 64) (BitVec 64) where
  toTraits := tempHash
  decodePair bytes := ⟨decodeWord (bytes.take 8), decodeWord (bytes.drop 8)⟩
  decodePair_zero := by decide

end RobinHoodHashmap
