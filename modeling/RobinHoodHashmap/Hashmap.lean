import RobinHoodHashmap.Execution
import RobinHoodHashmap.Header

/-!
# The hash map

The state and the member functions of `robin_hood_hashmap`.  A table is a list of blocks of
thirty-two slots; a slot is a header and a key/value pair.  `insert`, `_resize` and `_insert_new`
call each other without a bound in the source and take a call depth here.
-/

namespace RobinHoodHashmap

open Avx2

/-! ## State -/

/-- `key_value_pair`. -/
@[ext] structure KeyValuePair (κ υ : Type) where
  /-- Stored key. -/
  key : κ
  /-- Stored value. -/
  value : υ
  deriving DecidableEq

/-- One memory block: two registers of headers followed by thirty-two pairs. -/
@[ext] structure Block (κ υ : Type) where
  /-- Headers of the block; zero marks a free slot. -/
  header : Fin 32 → BitVec 16
  /-- Pairs of the block, in free slots as well. -/
  pair : Fin 32 → KeyValuePair κ υ

/-- What the class template uses of its type arguments. -/
structure Traits (κ υ : Type) where
  /-- `hasher {}(key)`. -/
  hasher : κ → BitVec 64
  /-- `sizeof(key_value_pair)`. -/
  pairSize : Nat
  /-- The pair read from bytes that are all zero. -/
  zeroPair : KeyValuePair κ υ
  /-- `value_type()`. -/
  defaultValue : υ
  /-- `value_type(-1)`. -/
  minusOne : υ

/-- `robin_hood_hashmap`, with `_memory` seen as the whole blocks of its allocation. -/
@[ext] structure Hashmap (κ υ : Type) where
  /-- `_count`. -/
  count : BitVec 32
  /-- `_capacity`. -/
  capacity : BitVec 32
  /-- `_max_offset`. -/
  maxOffset : BitVec 32
  /-- `_bit_mask`. -/
  bitMask : BitVec 32
  /-- `_memory`. -/
  memory : List (Block κ υ)
  /-- The buffer holds `_capacity` slots, hence this many whole blocks. -/
  allocated : memory.length = capacity.toNat / 32

/-- Ways in which execution leaves defined behaviour, and exhaustion of a loop or call bound. -/
inductive Fault where
  /-- A block outside the allocation is accessed. -/
  | outOfBounds
  /-- A shift by at least the width of its operand. -/
  | undefinedShift
  /-- A null pointer is dereferenced. -/
  | nullDereference
  /-- A loop or a call chain exceeds the bound given to it. -/
  | outOfFuel
  deriving DecidableEq

/-- Executions log the value `_capacity` has whenever `_resize` is called. -/
abbrev Exec (α : Type) := Execution (BitVec 32) Fault α

/-- A pointer to a pair of the table: the block and the slot inside it. -/
structure Place where
  /-- Block index. -/
  block : Nat
  /-- Slot inside the block. -/
  slot : Fin 32
  deriving DecidableEq

/-- `uint64_t` keys and values under the benchmarks' `temp_hash`, which returns its key. -/
def tempHash : Traits (BitVec 64) (BitVec 64) where
  hasher key := key
  pairSize := 16
  zeroPair := ⟨0#64, 0#64⟩
  defaultValue := 0#64
  minusOne := -1#64

variable {κ υ : Type}

namespace Block

/-- A block of zero bytes. -/
def zero (T : Traits κ υ) : Block κ υ where
  header _ := 0#16
  pair _ := T.zeroPair

/-- Slot of a lane of the first header register. -/
def firstSlot (lane : Fin 16) : Fin 32 := ⟨lane, by omega⟩

/-- Slot of a lane of the second header register. -/
def secondSlot (lane : Fin 16) : Fin 32 := ⟨lane + 16, by omega⟩

/-- The first header register, `*header_block_address`. -/
def firstHeaders (block : Block κ υ) : Lanes := fun lane => block.header (firstSlot lane)

/-- The second header register, `*(header_block_address + 1)`. -/
def secondHeaders (block : Block κ υ) : Lanes := fun lane => block.header (secondSlot lane)

/-- Assign through the value member of a pair. -/
def setValue (block : Block κ υ) (slot : Fin 32) (value : υ) : Block κ υ :=
  { block with pair := Function.update block.pair slot { block.pair slot with value } }

/-- Write header, key and value of one slot. -/
def fill (block : Block κ υ) (slot : Fin 32) (header : BitVec 16) (key : κ) (value : υ) :
    Block κ υ where
  header := Function.update block.header slot header
  pair := Function.update block.pair slot ⟨key, value⟩

/-- Zero the header of one slot; the pair stays. -/
def clearHeader (block : Block κ υ) (slot : Fin 32) : Block κ υ :=
  { block with header := Function.update block.header slot 0#16 }

end Block

namespace Hashmap

/-- Replace one block. -/
def setBlock (s : Hashmap κ υ) (nth : Nat) (block : Block κ υ) : Hashmap κ υ :=
  { s with
    memory := s.memory.set nth block
    allocated := by simpa using s.allocated }

/-- Assign the member `_count`. -/
def withCount (s : Hashmap κ υ) (count : BitVec 32) : Hashmap κ υ := { s with count }

end Hashmap

/-! ## Allocation -/

/-- `calloc(capacity, UINT_SIZE)`, as whole blocks. -/
def calloc (T : Traits κ υ) (capacity : BitVec 32) : List (Block κ υ) :=
  List.replicate (capacity.toNat * uintSize T.pairSize / memBlockSize T.pairSize) (Block.zero T)

theorem length_calloc (T : Traits κ υ) (capacity : BitVec 32) :
    (calloc T capacity).length = capacity.toNat / 32 := by
  simp [calloc, wholeBlocks_eq]

/-- Overwrite the blocks that lie inside the first `bytes` bytes of a buffer. -/
def overwrite (T : Traits κ υ) (bytes : Nat) (source : Nat → Block κ υ)
    (memory : List (Block κ υ)) : List (Block κ υ) :=
  memory.mapIdx fun nth block =>
    if (nth + 1) * memBlockSize T.pairSize ≤ bytes then source nth else block

/-- `robin_hood_hashmap(uint32_t capacity)`. -/
def construct (T : Traits κ υ) (capacity : BitVec 32) : Exec (Hashmap κ υ) :=
  let maxOffset := log2 capacity
  if maxOffset.toNat < 64 then
    pure
      { count := 0#32
        capacity
        maxOffset
        bitMask := constructorMask maxOffset
        memory := calloc T capacity
        allocated := length_calloc T capacity }
  else Execution.fault .undefinedShift

/-- `robin_hood_hashmap(const robin_hood_hashmap&)`. -/
def copyConstruct (T : Traits κ υ) (other : Hashmap κ υ) : Hashmap κ υ :=
  { count := other.count
    capacity := other.capacity
    maxOffset := other.maxOffset
    bitMask := other.bitMask
    memory := overwrite T (other.capacity.toNat * uintSize T.pairSize)
      (fun nth => other.memory.getD nth (Block.zero T)) (calloc T other.capacity)
    allocated := by simp [overwrite, length_calloc] }

/-- `clear`. -/
def clear (T : Traits κ υ) (s : Hashmap κ υ) : Hashmap κ υ :=
  { s with
    count := 0#32
    memory := overwrite T (s.capacity.toNat * uintSize T.pairSize) (fun _ => Block.zero T) s.memory
    allocated := by simpa [overwrite] using s.allocated }

/-- `size`. -/
def size (s : Hashmap κ υ) : BitVec 32 := s.count

/-! ## Block access and scans -/

/-- Address a block through `_memory`.  A block that is not wholly allocated counts as outside, also
where the access at hand would stay inside the buffer. -/
def headerBlock (T : Traits κ υ) (s : Hashmap κ υ) (nth : Nat) : Exec (Block κ υ) :=
  if inside : (nth + 1) * memBlockSize T.pairSize ≤ s.capacity.toNat * uintSize T.pairSize then
    pure (s.memory.get ⟨nth, by
      have slots := (block_fits_iff T.pairSize nth s.capacity.toNat).mp inside
      have blocks := s.allocated
      omega⟩)
  else Execution.fault .outOfBounds

/-- `get_first_byte_index`. -/
def getFirstByteIndex (v : Lanes) : BitVec 32 := tzcntU32 (movemaskEpi8 v)

/-- The loop of the two pair searches.  A round that misses clears its lane, so seventeen tests
of the loop condition suffice. -/
def findLoop [BEq κ] (block : Block κ υ) (key : κ) (slotOf : Fin 16 → Fin 32) :
    Nat → Lanes → Exec (Option (Fin 32))
  | 0, _ => Execution.fault .outOfFuel
  | rounds + 1, needleCmpRes =>
      if testzSi256 needleCmpRes needleCmpRes then pure none
      else
        let idx := getFirstByteIndex needleCmpRes >>> 1
        if inside : idx.toNat < 16 then
          let lane : Fin 16 := ⟨idx.toNat, inside⟩
          if key == (block.pair (slotOf lane)).key then pure (some (slotOf lane))
          else findLoop block key slotOf rounds (clearLane needleCmpRes lane)
        else Execution.fault .outOfBounds

/-- `_find_key_value_pair`. -/
def findKeyValuePair [BEq κ] (key : κ) (needleCmpRes : Lanes) (block : Block κ υ) :
    Exec (Option (Fin 32)) :=
  findLoop block key Block.firstSlot 17 needleCmpRes

/-- `_find_key_value_pair_second`. -/
def findKeyValuePairSecond [BEq κ] (key : κ) (needleCmpRes : Lanes) (block : Block κ υ) :
    Exec (Option (Fin 32)) :=
  findLoop block key Block.secondSlot 17 needleCmpRes

/-- The two-stage search that `insert`, `find` and `erase` each spell out. -/
def searchBlock [BEq κ] (block : Block κ υ) (key : κ) (homeIndex hash : BitVec 64) :
    Exec (Option (Fin 32)) := do
  let res ← findKeyValuePair key
    (cmpeqEpi16 block.firstHeaders (getFirstNeedle (homeIndex.setWidth 16) hash)) block
  match res with
  | some slot => pure (some slot)
  | none =>
      findKeyValuePairSecond key
        (cmpeqEpi16 block.secondHeaders (getSecondNeedle (homeIndex.setWidth 16) hash)) block

/-- The two-stage free-slot search that `insert` and `_insert_new` spell out; `32` when full. -/
def emptyIndex (block : Block κ υ) : BitVec 32 :=
  let emptyIdx := getFirstByteIndex (cmpeqEpi16 block.firstHeaders setzeroSi256) >>> 1
  if emptyIdx = 16#32 then
    16#32 + (getFirstByteIndex (cmpeqEpi16 block.secondHeaders setzeroSi256) >>> 1)
  else emptyIdx

/-- Write a new pair into a free slot and count it. -/
def placeNew (T : Traits κ υ) (s : Hashmap κ υ) (nth : Nat) (block : Block κ υ)
    (emptyIdx : BitVec 32) (homeIndex : BitVec 64) (key : κ) (value : υ) : Exec (Hashmap κ υ) :=
  if inside : emptyIdx.toNat < 32 then
    pure ((s.setBlock nth
      (block.fill ⟨emptyIdx.toNat, inside⟩ (slotHeader emptyIdx homeIndex (T.hasher key))
        key value)).withCount (s.count + 1))
  else Execution.fault .outOfBounds

/-! ## Rehashing -/

/-- The inner loop of `_resize` over one header register of an old block. -/
def rehashLoop (insertNew : Hashmap κ υ → κ → υ → Exec (Hashmap κ υ)) (block : Block κ υ)
    (slotOf : Fin 16 → Fin 32) : Nat → Lanes → Hashmap κ υ → Exec (Hashmap κ υ)
  | 0, _, _ => Execution.fault .outOfFuel
  | rounds + 1, haystack, s =>
      let notEmptyIdx := getFirstByteIndex (cmpeqEpi16 haystack (set1Epi16 1#16)) >>> 1
      if inside : notEmptyIdx.toNat < 16 then do
        let lane : Fin 16 := ⟨notEmptyIdx.toNat, inside⟩
        let pair := block.pair (slotOf lane)
        let s ← insertNew s pair.key pair.value
        rehashLoop insertNew block slotOf rounds (clearLane haystack lane) s
      else pure s

/-- One round of the outer loop of `_resize`: both registers of old block `i`. -/
def rehashBlock (T : Traits κ υ) (insertNew : Hashmap κ υ → κ → υ → Exec (Hashmap κ υ))
    (backup : Hashmap κ υ) (s : Hashmap κ υ) (i : Nat) : Exec (Hashmap κ υ) := do
  let block ← headerBlock T backup i
  let s ← rehashLoop insertNew block Block.firstSlot 17
    (andEpi32 block.firstHeaders (set1Epi16 1#16)) s
  rehashLoop insertNew block Block.secondSlot 17
    (andEpi32 block.secondHeaders (set1Epi16 1#16)) s

/-- The state `_resize` builds before rehashing: doubled capacity and a zeroed buffer. -/
def doubled (T : Traits κ υ) (s : Hashmap κ υ) : Hashmap κ υ :=
  { count := s.count
    capacity := s.capacity <<< 1
    maxOffset := log2 (s.capacity <<< 1)
    bitMask := resizeMask (log2 (s.capacity <<< 1))
    memory := calloc T (s.capacity <<< 1)
    allocated := length_calloc T (s.capacity <<< 1) }

mutual

/-- `insert`, with a bound on the depth of calls. -/
def insertWithin [BEq κ] (T : Traits κ υ) :
    Nat → Hashmap κ υ → κ → υ → Exec (Hashmap κ υ)
  | 0, _, _, _ => Execution.fault .outOfFuel
  | depth + 1, s, key, value => do
      let hash := T.hasher key
      let home := home hash s.bitMask
      let nth := (nthHeaderBlock home).toNat
      let block ← headerBlock T s nth
      let res ← searchBlock block key (homeIndex home) hash
      match res with
      | some slot => pure (s.setBlock nth (block.setValue slot value))
      | none =>
          let emptyIdx := emptyIndex block
          if emptyIdx = 32#32 then do
            let s ← resizeWithin T depth s
            insertNewWithin T depth s key value
          else placeNew T s nth block emptyIdx (homeIndex home) key value

/-- `_resize`, with a bound on the depth of calls. -/
def resizeWithin [BEq κ] (T : Traits κ υ) : Nat → Hashmap κ υ → Exec (Hashmap κ υ)
  | 0, _ => Execution.fault .outOfFuel
  | depth + 1, s => do
      Execution.emit s.capacity
      if (log2 (s.capacity <<< 1)).toNat < 32 then do
        let filled ← (List.range (s.capacity >>> 5).toNat).foldlM
          (rehashBlock T (insertNewWithin T depth) s) (doubled T s)
        pure (filled.withCount s.count)
      else Execution.fault .undefinedShift

/-- `_insert_new`, with a bound on the depth of calls. -/
def insertNewWithin [BEq κ] (T : Traits κ υ) :
    Nat → Hashmap κ υ → κ → υ → Exec (Hashmap κ υ)
  | 0, _, _, _ => Execution.fault .outOfFuel
  | depth + 1, s, key, value => do
      let hash := T.hasher key
      let home := home hash s.bitMask
      let nth := (nthHeaderBlock home).toNat
      let block ← headerBlock T s nth
      let emptyIdx := emptyIndex block
      if emptyIdx = 32#32 then do
        let s ← resizeWithin T depth s
        insertWithin T depth s key value
      else placeNew T s nth block emptyIdx (homeIndex home) key value

end

/-- A call depth no execution exceeds: a capacity doubled 32 times is zero. -/
def callDepth : Nat := 64

/-- `insert`. -/
def insert [BEq κ] (T : Traits κ υ) (s : Hashmap κ υ) (key : κ) (value : υ) :
    Exec (Hashmap κ υ) :=
  insertWithin T callDepth s key value

/-- `_resize`. -/
def resize [BEq κ] (T : Traits κ υ) (s : Hashmap κ υ) : Exec (Hashmap κ υ) :=
  resizeWithin T callDepth s

/-- `_insert_new`. -/
def insertNew [BEq κ] (T : Traits κ υ) (s : Hashmap κ υ) (key : κ) (value : υ) :
    Exec (Hashmap κ υ) :=
  insertNewWithin T callDepth s key value

/-! ## Lookup and removal -/

/-- `find`. -/
def find [BEq κ] (T : Traits κ υ) (s : Hashmap κ υ) (key : κ) : Exec (Option Place) := do
  let hash := T.hasher key
  let home := home hash s.bitMask
  let nth := (nthHeaderBlock home).toNat
  let block ← headerBlock T s nth
  let res ← searchBlock block key (homeIndex home) hash
  pure (res.map (Place.mk nth))

/-- `erase`: the value erased, or `value_type(-1)`. -/
def erase [BEq κ] (T : Traits κ υ) (s : Hashmap κ υ) (key : κ) : Exec (υ × Hashmap κ υ) := do
  let hash := T.hasher key
  let home := home hash s.bitMask
  let nth := (nthHeaderBlock home).toNat
  let block ← headerBlock T s nth
  let res ← searchBlock block key (homeIndex home) hash
  match res with
  | some slot =>
      pure ((block.pair slot).value,
        (s.setBlock nth (block.clearHeader slot)).withCount (s.count - 1))
  | none => pure (T.minusOne, s)

/-- The lookup that ends `operator[]`, whose answer is followed without a test. -/
def findAgain [BEq κ] (T : Traits κ υ) (s : Hashmap κ υ) (key : κ) :
    Exec (Place × Hashmap κ υ) := do
  let res ← find T s key
  match res with
  | some place => pure (place, s)
  | none => Execution.fault .nullDereference

/-- `operator[]`: the place its reference names. -/
def index [BEq κ] (T : Traits κ υ) (s : Hashmap κ υ) (key : κ) :
    Exec (Place × Hashmap κ υ) := do
  let res ← find T s key
  let s ← match res with
    | some _ => pure s
    | none => insert T s key T.defaultValue
  findAgain T s key

theorem findAgain_of_found [BEq κ] {T : Traits κ υ} {s : Hashmap κ υ} {key : κ} {place : Place}
    (found : find T s key = pure (some place)) : findAgain T s key = pure (place, s) := by
  rw [findAgain, found, pure_bind]

theorem findAgain_of_missing [BEq κ] {T : Traits κ υ} {s : Hashmap κ υ} {key : κ}
    (missing : find T s key = pure none) :
    findAgain T s key = Execution.fault .nullDereference := by
  rw [findAgain, missing, pure_bind]

theorem index_of_found [BEq κ] {T : Traits κ υ} {s : Hashmap κ υ} {key : κ} {place : Place}
    (found : find T s key = pure (some place)) : index T s key = pure (place, s) := by
  rw [index, found, pure_bind]
  calc
    _ = pure s >>= fun s' => findAgain T s' key := rfl
    _ = pure (place, s) := by rw [pure_bind, findAgain_of_found found]

theorem index_of_missing [BEq κ] {T : Traits κ υ} {s : Hashmap κ υ} {key : κ}
    (missing : find T s key = pure none) :
    index T s key = insert T s key T.defaultValue >>= fun s' => findAgain T s' key := by
  rw [index, missing, pure_bind]

/-- Read the value a returned pointer or reference names. -/
def readValue (T : Traits κ υ) (s : Hashmap κ υ) (place : Place) : Exec υ := do
  let block ← headerBlock T s place.block
  pure (block.pair place.slot).value

/-- Assign through a returned pointer or reference. -/
def writeValue (T : Traits κ υ) (s : Hashmap κ υ) (place : Place) (value : υ) :
    Exec (Hashmap κ υ) := do
  let block ← headerBlock T s place.block
  pure (s.setBlock place.block (block.setValue place.slot value))

end RobinHoodHashmap
