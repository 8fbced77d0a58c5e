import RobinHoodHashmap.Bytes
import RobinHoodHashmap.Layout

/-!
# Addresses

Headers and pairs of a buffer are cells at computed addresses.  The operations spell the address of
a pair in four ways that agree, all cells lie apart inside the allocation, and writing the bytes of
one cell changes that cell of the array of blocks.
-/

namespace RobinHoodHashmap

open Bytes

variable {κ υ : Type}

/-! ## Addresses

Offsets from `_memory`, in bytes, as the operations compute them. -/

/-- `header_block_address`, `(uint8_t*)_memory + nth_header_block * MEM_BLOCK_SIZE`. -/
def headerBlockAddress (pairSize nth : Nat) : Nat := nth * memBlockSize pairSize

/-- The header `(uint16_t*)header_block_address + idx`. -/
def headerAddress (pairSize nth idx : Nat) : Nat := headerBlockAddress pairSize nth + 2 * idx

/-- Lane `lane` of the register `*(header_block_address + register)`. -/
def registerAddress (pairSize nth register lane : Nat) : Nat :=
  headerBlockAddress pairSize nth + 32 * register + 2 * lane

/-- `_key_value_entry_ptr`. -/
def keyValueEntryPtr (pairSize nth idx : Nat) : Nat :=
  nth * memBlockSize pairSize + 64 + idx * pairSize

/-- `key_value_ptr` of `insert` and `_insert_new`: two registers past the block address. -/
def keyValuePtr (pairSize nth emptyIdx : Nat) : Nat :=
  headerBlockAddress pairSize nth + 2 * 32 + emptyIdx * pairSize

/-- The pointer difference of `erase`, in pairs. -/
def erasedIdx (pairSize nth resPtr : Nat) : Nat :=
  (resPtr - (headerBlockAddress pairSize nth + 2 * 32)) / pairSize

/-- `pair_ptr` of the first inner loop of `_resize`. -/
def backupPairPtr (pairSize i notEmptyIdx : Nat) : Nat :=
  i * memBlockSize pairSize + 64 + notEmptyIdx * pairSize

/-- `pair_ptr` of the second inner loop of `_resize`, sixteen pairs further. -/
def backupPairPtrSecond (pairSize i notEmptyIdx : Nat) : Nat :=
  backupPairPtr pairSize i notEmptyIdx + 16 * pairSize

/-! ## Cells -/

/-- What a slot of a block consists of. -/
inductive Cell where
  /-- The header of a slot. -/
  | header (slot : Fin 32)
  /-- The pair of a slot. -/
  | pair (slot : Fin 32)
  deriving DecidableEq

namespace Cell

/-- Where a cell starts inside its block. -/
def offset (pairSize : Nat) : Cell → Nat
  | header slot => 2 * slot
  | pair slot => 64 + slot * pairSize

/-- Bytes of a cell. -/
def size (pairSize : Nat) : Cell → Nat
  | header _ => 2
  | pair _ => pairSize

/-- Where a cell of block `nth` starts. -/
def address (pairSize nth : Nat) (cell : Cell) : Nat :=
  nth * memBlockSize pairSize + cell.offset pairSize

theorem address_header (pairSize nth : Nat) (slot : Fin 32) :
    (header slot).address pairSize nth = headerAddress pairSize nth slot := rfl

theorem address_pair (pairSize nth : Nat) (slot : Fin 32) :
    (pair slot).address pairSize nth = keyValueEntryPtr pairSize nth slot := by
  rw [address, offset, keyValueEntryPtr, Nat.add_assoc]

private theorem succ_mul_le {slot slot' : Nat} (before : slot < slot') (pairSize : Nat) :
    slot * pairSize + pairSize ≤ slot' * pairSize := by
  rw [← Nat.succ_mul]
  exact Nat.mul_le_mul_right _ before

theorem end_le (pairSize : Nat) (cell : Cell) :
    cell.offset pairSize + cell.size pairSize ≤ memBlockSize pairSize := by
  rw [memBlockSize_eq, uintSize]
  cases cell with
  | header slot =>
      simp only [offset, size]
      omega
  | pair slot =>
      have last := succ_mul_le slot.isLt pairSize
      simp only [offset, size]
      omega

theorem apart_offset (pairSize : Nat) {cell cell' : Cell} (distinct : cell ≠ cell') :
    Apart (cell.offset pairSize) (cell.size pairSize) (cell'.offset pairSize)
      (cell'.size pairSize) := by
  have headers_before : ∀ slot slot' : Fin 32, Apart ((header slot).offset pairSize)
      ((header slot).size pairSize) ((pair slot').offset pairSize) ((pair slot').size pairSize) := by
    intro slot slot'
    exact Or.inl (by simp only [offset, size]; omega)
  cases cell with
  | header slot =>
      cases cell' with
      | header slot' =>
          have slot_ne : slot.val ≠ slot'.val := fun same => distinct (congrArg header (Fin.ext same))
          simp only [Apart, offset, size]
          omega
      | pair slot' => exact headers_before slot slot'
  | pair slot =>
      cases cell' with
      | header slot' => exact (headers_before slot' slot).symm
      | pair slot' =>
          have slot_ne : slot.val ≠ slot'.val := fun same => distinct (congrArg pair (Fin.ext same))
          simp only [Apart, offset, size]
          rcases Nat.lt_or_gt_of_ne slot_ne with before | after
          · have next := succ_mul_le before pairSize
            omega
          · have next := succ_mul_le after pairSize
            omega

theorem apart_address (pairSize : Nat) {nth nth' : Nat} {cell cell' : Cell}
    (distinct : (nth, cell) ≠ (nth', cell')) :
    Apart (cell.address pairSize nth) (cell.size pairSize) (cell'.address pairSize nth')
      (cell'.size pairSize) := by
  by_cases same : nth = nth'
  · subst nth'
    have cells := apart_offset pairSize fun cell_eq => distinct (congrArg (Prod.mk nth) cell_eq)
    simp only [Apart, address] at cells ⊢
    omega
  · exact apart_of_block_ne same (end_le pairSize cell) (end_le pairSize cell')

theorem end_le_allocation (pairSize : Nat) {capacity nth : Nat} (inside : nth < capacity / 32)
    (cell : Cell) : cell.address pairSize nth + cell.size pairSize ≤ capacity * uintSize pairSize := by
  have block_end : (nth + 1) * memBlockSize pairSize ≤ capacity * uintSize pairSize := by
    rw [block_fits_iff]
    omega
  have cell_end := end_le pairSize cell
  rw [Nat.succ_mul] at block_end
  rw [address]
  omega

end Cell

/-- `insert` and `_insert_new` reach the pair `_key_value_entry_ptr` names. -/
theorem keyValuePtr_eq (pairSize nth idx : Nat) :
    keyValuePtr pairSize nth idx = keyValueEntryPtr pairSize nth idx := rfl

/-- So do the loops of `_resize`, in either half of a block. -/
theorem backupPairPtr_eq (pairSize nth : Nat) (lane : Fin 16) :
    backupPairPtr pairSize nth lane = keyValueEntryPtr pairSize nth (Block.firstSlot lane) ∧
      backupPairPtrSecond pairSize nth lane =
        keyValueEntryPtr pairSize nth (Block.secondSlot lane) := by
  refine ⟨rfl, ?_⟩
  rw [backupPairPtrSecond, backupPairPtr, keyValueEntryPtr, Block.secondSlot, Nat.add_mul,
    Nat.add_assoc]

theorem registerAddress_eq (pairSize nth : Nat) (lane : Fin 16) :
    registerAddress pairSize nth 0 lane = headerAddress pairSize nth (Block.firstSlot lane) ∧
      registerAddress pairSize nth 1 lane = headerAddress pairSize nth (Block.secondSlot lane) := by
  simp only [registerAddress, headerAddress, Block.firstSlot, Block.secondSlot]
  constructor
  · omega
  · omega

/-- Dividing out the pointer difference gives the slot back. -/
theorem erasedIdx_keyValueEntryPtr {pairSize : Nat} (positive : 0 < pairSize) (nth idx : Nat) :
    erasedIdx pairSize nth (keyValueEntryPtr pairSize nth idx) = idx := by
  rw [erasedIdx, keyValueEntryPtr, headerBlockAddress, Nat.add_sub_cancel_left,
    Nat.mul_div_cancel _ positive]

/-! ## Writing bytes -/

/-- The two bytes of a header, least significant first. -/
def encodeHeader (header : BitVec 16) : List (BitVec 8) :=
  [header.setWidth 8, (header >>> 8).setWidth 8]

private theorem append_bytes (header : BitVec 16) :
    (header >>> 8).setWidth 8 ++ header.setWidth 8 = header := by
  apply BitVec.eq_of_getLsbD_eq
  intro bit inside
  rw [BitVec.getLsbD_append]
  split
  · simp [*]
  · have high : bit - 8 < 8 := by omega
    have back : 8 + (bit - 8) = bit := by omega
    simp [high, back]

section Write

variable {bytes new : List (BitVec 8)} {offset : Nat}

theorem headerAt_eq_of_getElem? {bytes bytes' : List (BitVec 8)} {offset : Nat}
    (first : bytes[offset]? = bytes'[offset]?) (second : bytes[offset + 1]? = bytes'[offset + 1]?) :
    headerAt bytes offset = headerAt bytes' offset := by
  rw [headerAt, headerAt, List.getD_eq_getElem?_getD, List.getD_eq_getElem?_getD, first, second]
  rfl

theorem headerAt_writeAt_self (header : BitVec 16) (fits : offset + 2 ≤ bytes.length) :
    headerAt (writeAt bytes offset (encodeHeader header)) offset = header := by
  have first : (writeAt bytes offset (encodeHeader header))[offset + 0]? =
      some (header.setWidth 8) :=
    getElem?_writeAt_inside fits Nat.zero_lt_two
  have second : (writeAt bytes offset (encodeHeader header))[offset + 1]? =
      some ((header >>> 8).setWidth 8) :=
    getElem?_writeAt_inside fits Nat.one_lt_two
  rw [Nat.add_zero] at first
  rw [headerAt, List.getD_eq_getElem?_getD, List.getD_eq_getElem?_getD, first, second]
  exact append_bytes header

theorem headerAt_writeAt_of_apart (fits : offset + new.length ≤ bytes.length) {other : Nat}
    (apart : Apart offset new.length other 2) :
    headerAt (writeAt bytes offset new) other = headerAt bytes other := by
  apply headerAt_eq_of_getElem?
  · apply getElem?_writeAt_outside fits
    rcases apart with before | after <;> omega
  · apply getElem?_writeAt_outside fits
    rcases apart with before | after <;> omega

theorem bytesAt_writeAt_self (fits : offset + new.length ≤ bytes.length) :
    bytesAt (writeAt bytes offset new) offset new.length = new := by
  apply List.ext_getElem?
  intro nth
  rw [bytesAt]
  by_cases inside : nth < new.length
  · rw [List.getElem?_take_of_lt inside, List.getElem?_drop, getElem?_writeAt_inside fits inside]
  · rw [List.getElem?_eq_none_iff.mpr (by simp only [List.length_take]; omega),
      List.getElem?_eq_none_iff.mpr (by omega)]

theorem bytesAt_writeAt_of_apart (fits : offset + new.length ≤ bytes.length) {other length : Nat}
    (apart : Apart offset new.length other length) :
    bytesAt (writeAt bytes offset new) other length = bytesAt bytes other length := by
  apply List.ext_getElem?
  intro nth
  rw [bytesAt, bytesAt]
  by_cases inside : nth < length
  · rw [List.getElem?_take_of_lt inside, List.getElem?_take_of_lt inside, List.getElem?_drop,
      List.getElem?_drop]
    apply getElem?_writeAt_outside fits
    rcases apart with before | after <;> omega
  · rw [List.getElem?_eq_none_iff.mpr (by simp only [List.length_take]; omega),
      List.getElem?_eq_none_iff.mpr (by simp only [List.length_take]; omega)]

end Write

/-! ## Refinement of the array of blocks -/

section Blocks

variable (L : Layout κ υ) {capacity : BitVec 32} {bytes new : List (BitVec 8)} {nth position : Nat}

theorem header_blockAt (slot : Fin 32) : (blockAt L bytes nth).header slot =
    headerAt bytes ((Cell.header slot).address L.pairSize nth) := rfl

theorem pair_blockAt (slot : Fin 32) : (blockAt L bytes nth).pair slot =
    L.decodePair (bytesAt bytes ((Cell.pair slot).address L.pairSize nth) L.pairSize) := by
  rw [Cell.address_pair]
  rfl

/-- A write inside one cell of an allocated buffer. -/
structure WriteInside (pairSize : Nat) (bytes new : List (BitVec 8)) (position nth : Nat)
    (cell : Cell) : Prop where
  /-- The write starts at or after the start of the cell. -/
  lower : cell.address pairSize nth ≤ position
  /-- It ends by the end of the cell. -/
  upper : position + new.length ≤ cell.address pairSize nth + cell.size pairSize
  /-- The buffer has these bytes. -/
  fits : position + new.length ≤ bytes.length

theorem writeInside_of_allocated {pairSize : Nat} {cell : Cell} (inside : nth < capacity.toNat / 32)
    (allocated : bytes.length = capacity.toNat * uintSize pairSize)
    (lower : cell.address pairSize nth ≤ position)
    (upper : position + new.length ≤ cell.address pairSize nth + cell.size pairSize) :
    WriteInside pairSize bytes new position nth cell := by
  have cell_end := Cell.end_le_allocation pairSize inside cell
  exact ⟨lower, upper, by omega⟩

variable {written : Nat} {cell : Cell}

theorem header_blockAt_writeAt (within : WriteInside L.pairSize bytes new position written cell)
    {slot : Fin 32} (distinct : (written, cell) ≠ (nth, .header slot)) :
    (blockAt L (writeAt bytes position new) nth).header slot =
      (blockAt L bytes nth).header slot := by
  rw [header_blockAt, header_blockAt]
  exact headerAt_writeAt_of_apart within.fits
    ((Cell.apart_address L.pairSize distinct).part within.lower within.upper)

theorem pair_blockAt_writeAt (within : WriteInside L.pairSize bytes new position written cell)
    {slot : Fin 32} (distinct : (written, cell) ≠ (nth, .pair slot)) :
    (blockAt L (writeAt bytes position new) nth).pair slot = (blockAt L bytes nth).pair slot := by
  rw [pair_blockAt, pair_blockAt]
  congr 1
  exact bytesAt_writeAt_of_apart within.fits
    ((Cell.apart_address L.pairSize distinct).part within.lower within.upper)

theorem blockAt_writeAt_of_ne (within : WriteInside L.pairSize bytes new position written cell)
    (distinct : written ≠ nth) :
    blockAt L (writeAt bytes position new) nth = blockAt L bytes nth := by
  have cells : ∀ other : Cell, (written, cell) ≠ (nth, other) :=
    fun _ same => distinct (congrArg Prod.fst same)
  apply Block.ext
  · funext slot
    exact header_blockAt_writeAt L within (cells _)
  · funext slot
    exact pair_blockAt_writeAt L within (cells _)

/-- A write inside a cell of block `nth` replaces block `nth` of the array. -/
theorem blocksOf_writeAt {block : Block κ υ}
    (within : WriteInside L.pairSize bytes new position nth cell)
    (block_eq : blockAt L (writeAt bytes position new) nth = block) :
    blocksOf L capacity (writeAt bytes position new) =
      (blocksOf L capacity bytes).set nth block := by
  apply List.ext_getElem
  · simp
  · intro other inside _
    rw [length_blocksOf] at inside
    rw [List.getElem_set]
    split_ifs with same
    · subst other
      simpa [blocksOf] using block_eq
    · simpa [blocksOf] using blockAt_writeAt_of_ne L within same

/-- Writing the bytes of a header changes that header only. -/
theorem blocksOf_write_header (inside : nth < capacity.toNat / 32)
    (allocated : bytes.length = capacity.toNat * uintSize L.pairSize) (slot : Fin 32)
    (header : BitVec 16) :
    blocksOf L capacity (writeAt bytes (headerAddress L.pairSize nth slot) (encodeHeader header)) =
      (blocksOf L capacity bytes).set nth
        ⟨Function.update (blockAt L bytes nth).header slot header, (blockAt L bytes nth).pair⟩ := by
  rw [← Cell.address_header]
  have within : WriteInside L.pairSize bytes (encodeHeader header)
      ((Cell.header slot).address L.pairSize nth) nth (.header slot) :=
    writeInside_of_allocated inside allocated le_rfl le_rfl
  apply blocksOf_writeAt L within
  apply Block.ext
  · funext other
    by_cases same : other = slot
    · subst other
      simp only [Function.update_self]
      exact headerAt_writeAt_self header within.fits
    · simp only [Function.update_of_ne same]
      exact header_blockAt_writeAt L within (by simpa using Ne.symm same)
  · funext other
    exact pair_blockAt_writeAt L within (by simp)

/-- Writing bytes of a pair, of its key or of its value, changes that pair only. -/
theorem blocksOf_write_pair (inside : nth < capacity.toNat / 32)
    (allocated : bytes.length = capacity.toNat * uintSize L.pairSize) (slot : Fin 32)
    (lower : keyValueEntryPtr L.pairSize nth slot ≤ position)
    (upper : position + new.length ≤ keyValueEntryPtr L.pairSize nth slot + L.pairSize) :
    blocksOf L capacity (writeAt bytes position new) =
      (blocksOf L capacity bytes).set nth ⟨(blockAt L bytes nth).header,
        Function.update (blockAt L bytes nth).pair slot (L.decodePair
          (bytesAt (writeAt bytes position new) (keyValueEntryPtr L.pairSize nth slot)
            L.pairSize))⟩ := by
  rw [← Cell.address_pair] at lower upper ⊢
  have within : WriteInside L.pairSize bytes new position nth (.pair slot) :=
    writeInside_of_allocated inside allocated lower upper
  apply blocksOf_writeAt L within
  apply Block.ext
  · funext other
    exact header_blockAt_writeAt L within (by simp)
  · funext other
    by_cases same : other = slot
    · subst other
      simp only [pair_blockAt, Function.update_self]
    · simp only [Function.update_of_ne same]
      exact pair_blockAt_writeAt L within (by simpa using Ne.symm same)

end Blocks

/-- A buffer of the size of the capacity that holds the blocks of a table. -/
structure Encodes (L : Layout κ υ) (bytes : List (BitVec 8)) (s : Hashmap κ υ) : Prop where
  /-- The bytes the constructor asks for. -/
  length_eq : bytes.length = s.capacity.toNat * uintSize L.pairSize
  /-- The blocks are read from the bytes. -/
  memory_eq : s.memory = blocksOf L s.capacity bytes

namespace Encodes

variable {L : Layout κ υ} {bytes : List (BitVec 8)} {s : Hashmap κ υ} {nth : Nat}
  {block : Block κ υ}

theorem inside (encodes : Encodes L bytes s) (addressed : s.memory[nth]? = some block) :
    nth < s.capacity.toNat / 32 := by
  obtain ⟨inside, -⟩ := List.getElem?_eq_some_iff.mp addressed
  rwa [encodes.memory_eq, length_blocksOf] at inside

theorem blockAt_eq (encodes : Encodes L bytes s) (addressed : s.memory[nth]? = some block) :
    blockAt L bytes nth = block := by
  have inside := encodes.inside addressed
  rw [encodes.memory_eq] at addressed
  simpa [blocksOf, inside] using addressed

theorem write_header (encodes : Encodes L bytes s) (addressed : s.memory[nth]? = some block)
    (slot : Fin 32) (header : BitVec 16) :
    Encodes L (writeAt bytes (headerAddress L.pairSize nth slot) (encodeHeader header))
      (s.setBlock nth ⟨Function.update block.header slot header, block.pair⟩) := by
  have inside := encodes.inside addressed
  have cell_end := Cell.end_le_allocation L.pairSize inside (.header slot)
  rw [← encodes.length_eq, Cell.address_header] at cell_end
  constructor
  · exact (length_writeAt cell_end).trans encodes.length_eq
  · simp only [Hashmap.setBlock, blocksOf_write_header L inside encodes.length_eq,
      encodes.blockAt_eq addressed, encodes.memory_eq]

theorem write_pair (encodes : Encodes L bytes s) (addressed : s.memory[nth]? = some block)
    (slot : Fin 32) {encoded : List (BitVec 8)} (encoded_length : encoded.length = L.pairSize) :
    Encodes L (writeAt bytes (keyValueEntryPtr L.pairSize nth slot) encoded)
      (s.setBlock nth
        ⟨block.header, Function.update block.pair slot (L.decodePair encoded)⟩) := by
  have inside := encodes.inside addressed
  have fits : keyValueEntryPtr L.pairSize nth slot + encoded.length ≤ bytes.length := by
    rw [encodes.length_eq, encoded_length, ← Cell.address_pair]
    exact Cell.end_le_allocation L.pairSize inside (.pair slot)
  have read_back := bytesAt_writeAt_self fits
  rw [encoded_length] at read_back
  constructor
  · exact (length_writeAt fits).trans encodes.length_eq
  · simp only [Hashmap.setBlock, encodes.memory_eq,
      blocksOf_write_pair L inside encodes.length_eq slot le_rfl (by rw [encoded_length]),
      read_back, encodes.blockAt_eq addressed]

theorem fill (encodes : Encodes L bytes s) (addressed : s.memory[nth]? = some block)
    (slot : Fin 32) (header : BitVec 16) {encoded : List (BitVec 8)} {key : κ} {value : υ}
    (encoded_length : encoded.length = L.pairSize) (decoded : L.decodePair encoded = ⟨key, value⟩) :
    Encodes L
      (writeAt (writeAt bytes (headerAddress L.pairSize nth slot) (encodeHeader header))
        (keyValuePtr L.pairSize nth slot) encoded)
      (s.setBlock nth (block.fill slot header key value)) := by
  obtain ⟨bound, -⟩ := List.getElem?_eq_some_iff.mp addressed
  have again : (s.setBlock nth
      ⟨Function.update block.header slot header, block.pair⟩).memory[nth]? =
        some ⟨Function.update block.header slot header, block.pair⟩ := by
    simp [Hashmap.setBlock, bound]
  have written := (encodes.write_header addressed slot header).write_pair again slot
    encoded_length
  simp only [decoded, Hashmap.setBlock, List.set_set] at written
  exact written

/-- Zeroing the bytes of a header at the index `erase` computes clears it. -/
theorem clearHeader (positive : 0 < L.pairSize) (encodes : Encodes L bytes s)
    (addressed : s.memory[nth]? = some block) (slot : Fin 32) :
    Encodes L
      (writeAt bytes (headerAddress L.pairSize nth
        (erasedIdx L.pairSize nth (keyValueEntryPtr L.pairSize nth slot))) (encodeHeader 0#16))
      (s.setBlock nth (block.clearHeader slot)) := by
  rw [erasedIdx_keyValueEntryPtr positive]
  exact encodes.write_header addressed slot 0#16

theorem clear (encodes : Encodes L bytes s) :
    Encodes L
      (writeAt bytes 0 (List.replicate (s.capacity.toNat * uintSize L.pairSize) 0#8))
      (clear L.toTraits s) := by
  have whole : writeAt bytes 0 (List.replicate (s.capacity.toNat * uintSize L.pairSize) 0#8) =
      List.replicate (s.capacity.toNat * uintSize L.pairSize) 0#8 := by
    simp [writeAt, encodes.length_eq]
  rw [whole]
  constructor
  · exact List.length_replicate
  · rw [memory_clear, s.allocated]
    refine Eq.trans ?_ (blocksOf_zero L s.capacity).symm
    rw [calloc, wholeBlocks_eq]

theorem copyConstruct (encodes : Encodes L bytes s) :
    Encodes L
      (writeAt (List.replicate (s.capacity.toNat * uintSize L.pairSize) 0#8) 0
        (bytes.take (s.capacity.toNat * uintSize L.pairSize)))
      (copyConstruct L.toTraits s) := by
  have whole : writeAt (List.replicate (s.capacity.toNat * uintSize L.pairSize) 0#8) 0
      (bytes.take (s.capacity.toNat * uintSize L.pairSize)) = bytes := by
    simp [writeAt, ← encodes.length_eq]
  rw [whole, copyConstruct_eq]
  exact encodes

end Encodes

/-! ## The layout as a whole -/

/-- Bytes of the header of a slot. -/
def headerRange (pairSize nth slot : Nat) : Set Nat :=
  Set.Ico (headerAddress pairSize nth slot) (headerAddress pairSize nth slot + 2)

/-- Bytes of the pair of a slot. -/
def pairRange (pairSize nth slot : Nat) : Set Nat :=
  Set.Ico (keyValueEntryPtr pairSize nth slot) (keyValueEntryPtr pairSize nth slot + pairSize)

/-- The bytes of a buffer for `capacity` slots are laid out as an array of blocks. -/
structure ByteLayout (L : Layout κ υ) (capacity : BitVec 32) : Prop where
  /-- Every header and every pair lies inside the allocation. -/
  inside : ∀ nth < (capacity >>> 5).toNat, ∀ slot : Fin 32,
    headerRange L.pairSize nth slot ∪ pairRange L.pairSize nth slot ⊆
      Set.Ico 0 (capacity.toNat * uintSize L.pairSize)
  /-- Different headers share no byte. -/
  headers_disjoint : ∀ nth nth' : Nat, ∀ slot slot' : Fin 32, (nth, slot) ≠ (nth', slot') →
    Disjoint (headerRange L.pairSize nth slot) (headerRange L.pairSize nth' slot')
  /-- Different pairs share no byte. -/
  pairs_disjoint : ∀ nth nth' : Nat, ∀ slot slot' : Fin 32, (nth, slot) ≠ (nth', slot') →
    Disjoint (pairRange L.pairSize nth slot) (pairRange L.pairSize nth' slot')
  /-- A header and a pair share no byte. -/
  header_pair_disjoint : ∀ nth nth' : Nat, ∀ slot slot' : Fin 32,
    Disjoint (headerRange L.pairSize nth slot) (pairRange L.pairSize nth' slot')
  /-- The insertions write the pair that `_key_value_entry_ptr` names. -/
  insert_form : ∀ nth : Nat, ∀ slot : Fin 32,
    keyValuePtr L.pairSize nth slot = keyValueEntryPtr L.pairSize nth slot
  /-- Lane `lane` of the second search is the pair after sixteen others. -/
  second_form : ∀ nth : Nat, ∀ lane : Fin 16,
    keyValueEntryPtr L.pairSize nth (lane + 16) =
      keyValueEntryPtr L.pairSize nth (Block.secondSlot lane)
  /-- The pointer difference of `erase` recovers the slot. -/
  erase_form : ∀ nth : Nat, ∀ slot : Fin 32,
    erasedIdx L.pairSize nth (keyValueEntryPtr L.pairSize nth slot) = slot
  /-- The loops of `_resize` read the pairs of the lanes they find. -/
  resize_form : ∀ nth : Nat, ∀ lane : Fin 16,
    backupPairPtr L.pairSize nth lane = keyValueEntryPtr L.pairSize nth (Block.firstSlot lane) ∧
      backupPairPtrSecond L.pairSize nth lane =
        keyValueEntryPtr L.pairSize nth (Block.secondSlot lane)
  /-- Register lanes are headers. -/
  register_form : ∀ nth : Nat, ∀ lane : Fin 16,
    registerAddress L.pairSize nth 0 lane = headerAddress L.pairSize nth (Block.firstSlot lane) ∧
      registerAddress L.pairSize nth 1 lane = headerAddress L.pairSize nth (Block.secondSlot lane)
  /-- Writing a header changes the header of that slot and nothing else. -/
  write_header : ∀ bytes : List (BitVec 8), bytes.length = capacity.toNat * uintSize L.pairSize →
    ∀ nth < (capacity >>> 5).toNat, ∀ (slot : Fin 32) (header : BitVec 16),
      blocksOf L capacity
          (writeAt bytes (headerAddress L.pairSize nth slot) (encodeHeader header)) =
        (blocksOf L capacity bytes).set nth
          ⟨Function.update (blockAt L bytes nth).header slot header, (blockAt L bytes nth).pair⟩
  /-- Writing a pair, or a part of it, changes the pair of that slot and nothing else. -/
  write_pair : ∀ bytes : List (BitVec 8), bytes.length = capacity.toNat * uintSize L.pairSize →
    ∀ nth < (capacity >>> 5).toNat, ∀ (slot : Fin 32) (position : Nat) (new : List (BitVec 8)),
      keyValueEntryPtr L.pairSize nth slot ≤ position →
      position + new.length ≤ keyValueEntryPtr L.pairSize nth slot + L.pairSize →
      blocksOf L capacity (writeAt bytes position new) =
        (blocksOf L capacity bytes).set nth ⟨(blockAt L bytes nth).header,
          Function.update (blockAt L bytes nth).pair slot (L.decodePair
            (bytesAt (writeAt bytes position new) (keyValueEntryPtr L.pairSize nth slot)
              L.pairSize))⟩
  /-- `memset` of `clear` reaches every slot. -/
  memset : ∀ (bytes : List (BitVec 8)) (s : Hashmap κ υ), s.capacity = capacity →
    Encodes L bytes s →
    Encodes L (writeAt bytes 0 (List.replicate (capacity.toNat * uintSize L.pairSize) 0#8))
      (clear L.toTraits s) ∧
      ∀ block ∈ (clear L.toTraits s).memory, block = Block.zero L.toTraits
  /-- `memcpy` of the copy constructor reaches every slot. -/
  memcpy : ∀ (bytes : List (BitVec 8)) (s : Hashmap κ υ), s.capacity = capacity →
    Encodes L bytes s →
    Encodes L
      (writeAt (List.replicate (capacity.toNat * uintSize L.pairSize) 0#8) 0
        (bytes.take (capacity.toNat * uintSize L.pairSize)))
      (copyConstruct L.toTraits s) ∧
      (copyConstruct L.toTraits s).memory = s.memory

theorem shiftRight_five (capacity : BitVec 32) : (capacity >>> 5).toNat = capacity.toNat / 32 := by
  rw [BitVec.toNat_ushiftRight, Nat.shiftRight_eq_div_pow]

theorem pairRange_eq (pairSize nth : Nat) (slot : Fin 32) :
    pairRange pairSize nth slot = Set.Ico ((Cell.pair slot).address pairSize nth)
      ((Cell.pair slot).address pairSize nth + (Cell.pair slot).size pairSize) := by
  rw [Cell.address_pair]
  rfl

/-- Every buffer of a table with pairs of at least one byte is laid out as an array of blocks. -/
theorem byteLayout (L : Layout κ υ) (positive : 0 < L.pairSize) (capacity : BitVec 32) :
    ByteLayout L capacity where
  inside nth bound slot := by
    rw [shiftRight_five] at bound
    have header_end := Cell.end_le_allocation L.pairSize bound (.header slot)
    have pair_end := Cell.end_le_allocation L.pairSize bound (.pair slot)
    rw [pairRange_eq]
    apply Set.union_subset
    · exact Set.Ico_subset_Ico (Nat.zero_le _) header_end
    · exact Set.Ico_subset_Ico (Nat.zero_le _) pair_end
  headers_disjoint nth nth' slot slot' distinct := by
    have cells : (nth, Cell.header slot) ≠ (nth', Cell.header slot') := by simpa using distinct
    exact (Cell.apart_address L.pairSize cells).disjoint
  pairs_disjoint nth nth' slot slot' distinct := by
    have cells : (nth, Cell.pair slot) ≠ (nth', Cell.pair slot') := by simpa using distinct
    rw [pairRange_eq, pairRange_eq]
    exact (Cell.apart_address L.pairSize cells).disjoint
  header_pair_disjoint nth nth' slot slot' := by
    have cells : (nth, Cell.header slot) ≠ (nth', Cell.pair slot') := by simp
    rw [pairRange_eq]
    exact (Cell.apart_address L.pairSize cells).disjoint
  insert_form nth slot := keyValuePtr_eq L.pairSize nth slot
  second_form _ _ := rfl
  erase_form nth slot := erasedIdx_keyValueEntryPtr positive nth slot
  resize_form nth lane := backupPairPtr_eq L.pairSize nth lane
  register_form nth lane := registerAddress_eq L.pairSize nth lane
  write_header bytes allocated nth bound slot header :=
    blocksOf_write_header L ((shiftRight_five capacity).symm ▸ bound) allocated slot header
  write_pair bytes allocated nth bound slot position new lower upper :=
    blocksOf_write_pair L ((shiftRight_five capacity).symm ▸ bound) allocated slot lower upper
  memset := by
    rintro bytes s rfl encodes
    refine ⟨encodes.clear, fun block member => ?_⟩
    rw [memory_clear] at member
    exact List.eq_of_mem_replicate member
  memcpy := by
    rintro bytes s rfl encodes
    exact ⟨encodes.copyConstruct, by rw [copyConstruct_eq]⟩

theorem byteLayout_words : ByteLayout tempLayout 96#32 := byteLayout tempLayout (by decide) 96#32

end RobinHoodHashmap
