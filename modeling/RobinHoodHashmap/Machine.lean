import RobinHoodHashmap.Addresses
import RobinHoodHashmap.Objects
import RobinHoodHashmap.Run

/-!
# The byte machine

The member functions once more, on the bytes of a heap.  Every register, header, key and value is
loaded from or stored to an address computed from `_memory`, the buffers come from `calloc` and go to
`free`, and an access outside a live block is a fault, whatever its alignment.  A pointer into the
buffer is its offset.
-/

namespace RobinHoodHashmap

open Avx2 CHeap

variable {κ υ : Type}

/-- Bytes of the members of a pair: the key at its start, the value at an offset. -/
structure Codec (κ υ : Type) extends Layout κ υ where
  /-- `sizeof(key_type)`. -/
  keySize : Nat
  /-- Where `value` starts inside a pair. -/
  valueOffset : Nat
  /-- `sizeof(value_type)`. -/
  valueSize : Nat
  /-- Bytes of a key. -/
  encodeKey : κ → List (BitVec 8)
  /-- Bytes of a value. -/
  encodeValue : υ → List (BitVec 8)
  /-- The key some bytes represent. -/
  decodeKey : List (BitVec 8) → κ
  /-- The value some bytes represent. -/
  decodeValue : List (BitVec 8) → υ
  /-- Keys have the size of their type. -/
  length_encodeKey : ∀ key, (encodeKey key).length = keySize
  /-- Values have the size of their type. -/
  length_encodeValue : ∀ value, (encodeValue value).length = valueSize
  /-- A key is read back from its bytes. -/
  decodeKey_encodeKey : ∀ key, decodeKey (encodeKey key) = key
  /-- A value is read back from its bytes. -/
  decodeValue_encodeValue : ∀ value, decodeValue (encodeValue value) = value
  /-- The members do not overlap. -/
  key_before_value : keySize ≤ valueOffset
  /-- The members lie inside the pair. -/
  value_inside : valueOffset + valueSize ≤ pairSize
  /-- `sizeof` is positive. -/
  pairSize_pos : 0 < pairSize
  /-- A pair is its members. -/
  decodePair_eq : ∀ bytes, bytes.length = pairSize → decodePair bytes =
    ⟨decodeKey (bytesAt bytes 0 keySize), decodeValue (bytesAt bytes valueOffset valueSize)⟩

/-- Two `uint64_t` next to each other. -/
def tempCodec : Codec (BitVec 64) (BitVec 64) where
  toLayout := tempLayout
  keySize := 8
  valueOffset := 8
  valueSize := 8
  encodeKey := encodeWord
  encodeValue := encodeWord
  decodeKey := decodeWord
  decodeValue := decodeWord
  length_encodeKey key := by simp [encodeWord]
  length_encodeValue value := by simp [encodeWord]
  decodeKey_encodeKey := decodeWord_encodeWord
  decodeValue_encodeValue := decodeWord_encodeWord
  key_before_value := le_rfl
  value_inside := by decide
  pairSize_pos := by decide
  decodePair_eq := by
    intro bytes length_eq
    have rest : (bytes.drop 8).length ≤ 8 := by
      rw [List.length_drop, length_eq]
      decide
    rw [bytesAt, bytesAt, List.take_of_length_le rest]
    rfl

/-- A map object and the heap that holds its buffer. -/
structure Machine where
  /-- Live blocks. -/
  heap : Heap
  /-- `*this`. -/
  this : Object

namespace Machine

/-! ## Loads and stores -/

/-- The register `*(header_block_address + register)`. -/
def loadRegister (pairSize : Nat) (heap : Heap) (memory : Pointer) (nth register : Nat) :
    ByteExec Lanes := do
  let bytes ← checked (load heap memory (headerBlockAddress pairSize nth + 32 * register) 32)
  pure fun lane => headerAt bytes (2 * lane)

/-- `->key` of an entry. -/
def loadKey (C : Codec κ υ) (heap : Heap) (memory : Pointer) (entry : Nat) : ByteExec κ := do
  let bytes ← checked (load heap memory entry C.keySize)
  pure (C.decodeKey bytes)

/-- `->value` of an entry. -/
def loadValue (C : Codec κ υ) (heap : Heap) (memory : Pointer) (entry : Nat) : ByteExec υ := do
  let bytes ← checked (load heap memory (entry + C.valueOffset) C.valueSize)
  pure (C.decodeValue bytes)

/-- Store a header at `(uint16_t*)header_block_address + idx`. -/
def storeHeader (pairSize : Nat) (heap : Heap) (memory : Pointer) (nth idx : Nat)
    (header : BitVec 16) : ByteExec Heap :=
  checked (store heap memory (headerAddress pairSize nth idx) (encodeHeader header))

/-- Assign to `->key` of an entry. -/
def storeKey (C : Codec κ υ) (heap : Heap) (memory : Pointer) (entry : Nat) (key : κ) : ByteExec Heap :=
  checked (store heap memory entry (C.encodeKey key))

/-- Assign to `->value` of an entry. -/
def storeValue (C : Codec κ υ) (heap : Heap) (memory : Pointer) (entry : Nat) (value : υ) :
    ByteExec Heap :=
  checked (store heap memory (entry + C.valueOffset) (C.encodeValue value))

/-! ## Scans -/

/-- The loop of the two pair searches, which differ in the slot of lane zero. -/
def findLoop [BEq κ] (C : Codec κ υ) (heap : Heap) (memory : Pointer) (nth base : Nat) (key : κ) :
    Nat → Lanes → ByteExec (Option Nat)
  | 0, _ => Execution.fault .outOfFuel
  | rounds + 1, needleCmpRes =>
      if testzSi256 needleCmpRes needleCmpRes then pure none
      else
        let idx := getFirstByteIndex needleCmpRes >>> 1
        if inside : idx.toNat < 16 then do
          let it := keyValueEntryPtr C.pairSize nth (idx.toNat + base)
          let found ← loadKey C heap memory it
          if key == found then pure (some it)
          else findLoop C heap memory nth base key rounds (clearLane needleCmpRes ⟨idx.toNat, inside⟩)
        else Execution.fault .outOfBounds

/-- `_find_key_value_pair`. -/
def findKeyValuePair [BEq κ] (C : Codec κ υ) (m : Machine) (key : κ) (needleCmpRes : Lanes)
    (nth : Nat) : ByteExec (Option Nat) :=
  findLoop C m.heap m.this.memory nth 0 key 17 needleCmpRes

/-- `_find_key_value_pair_second`. -/
def findKeyValuePairSecond [BEq κ] (C : Codec κ υ) (m : Machine) (key : κ) (needleCmpRes : Lanes)
    (nth : Nat) : ByteExec (Option Nat) :=
  findLoop C m.heap m.this.memory nth 16 key 17 needleCmpRes

/-- The two-stage search that `insert`, `find` and `erase` each spell out. -/
def searchBlock [BEq κ] (C : Codec κ υ) (m : Machine) (nth : Nat) (key : κ)
    (homeIndex hash : BitVec 64) : ByteExec (Option Nat) := do
  let first ← loadRegister C.pairSize m.heap m.this.memory nth 0
  let res ← findKeyValuePair C m key
    (cmpeqEpi16 first (getFirstNeedle (homeIndex.setWidth 16) hash)) nth
  match res with
  | some it => pure (some it)
  | none => do
      let second ← loadRegister C.pairSize m.heap m.this.memory nth 1
      findKeyValuePairSecond C m key
        (cmpeqEpi16 second (getSecondNeedle (homeIndex.setWidth 16) hash)) nth

/-- The two-stage free-slot search of `insert` and `_insert_new`; `32` when full. -/
def emptyIndex (C : Codec κ υ) (m : Machine) (nth : Nat) : ByteExec (BitVec 32) := do
  let first ← loadRegister C.pairSize m.heap m.this.memory nth 0
  let emptyIdx := getFirstByteIndex (cmpeqEpi16 first setzeroSi256) >>> 1
  if emptyIdx = 16#32 then do
    let second ← loadRegister C.pairSize m.heap m.this.memory nth 1
    pure (16#32 + (getFirstByteIndex (cmpeqEpi16 second setzeroSi256) >>> 1))
  else pure emptyIdx

/-- Write header, key and value of a free slot, in this order, and count the entry. -/
def placeNew (C : Codec κ υ) (m : Machine) (nth : Nat) (emptyIdx : BitVec 32)
    (homeIndex hash : BitVec 64) (key : κ) (value : υ) : ByteExec Machine := do
  let heap ← storeHeader C.pairSize m.heap m.this.memory nth emptyIdx.toNat
    (slotHeader emptyIdx homeIndex hash)
  let entry := keyValuePtr C.pairSize nth emptyIdx.toNat
  let heap ← storeKey C heap m.this.memory entry key
  let heap ← storeValue C heap m.this.memory entry value
  pure { heap, this := { m.this with count := m.this.count + 1 } }

/-! ## Rehashing -/

/-- The inner loops of `_resize` over one register of an old block; `base` is the slot of lane
zero. -/
def rehashLoop (C : Codec κ υ) (insertNew : Machine → κ → υ → ByteExec Machine) (backup : Pointer)
    (i base : Nat) : Nat → Lanes → Machine → ByteExec Machine
  | 0, _, _ => Execution.fault .outOfFuel
  | rounds + 1, haystack, m =>
      let notEmptyIdx := getFirstByteIndex (cmpeqEpi16 haystack (set1Epi16 1#16)) >>> 1
      if inside : notEmptyIdx.toNat < 16 then do
        let pairPtr := backupPairPtr C.pairSize i notEmptyIdx.toNat + base * C.pairSize
        let key ← loadKey C m.heap backup pairPtr
        let value ← loadValue C m.heap backup pairPtr
        let m ← insertNew m key value
        rehashLoop C insertNew backup i base rounds (clearLane haystack ⟨notEmptyIdx.toNat, inside⟩) m
      else pure m

/-- One round of the outer loop of `_resize`: both registers of old block `i`. -/
def rehashBlock (C : Codec κ υ) (insertNew : Machine → κ → υ → ByteExec Machine) (backup : Pointer)
    (m : Machine) (i : Nat) : ByteExec Machine := do
  let first ← loadRegister C.pairSize m.heap backup i 0
  let m ← rehashLoop C insertNew backup i 0 17 (andEpi32 first (set1Epi16 1#16)) m
  let second ← loadRegister C.pairSize m.heap backup i 1
  rehashLoop C insertNew backup i 16 17 (andEpi32 second (set1Epi16 1#16)) m

/-- The state `_resize` rehashes into: doubled capacity and the buffer from `calloc`. -/
def doubled (m : Machine) (heap : Heap) (memory : Pointer) : Machine :=
  let capacity := m.this.capacity <<< 1
  { heap
    this :=
      { count := m.this.count
        capacity
        maxOffset := log2 capacity
        bitMask := resizeMask (log2 capacity)
        memory } }

section Members

variable [BEq κ] (C : Codec κ υ) (calloc : Heap → Nat → Heap × Pointer)

mutual

/-- `insert`, with a bound on the depth of calls. -/
def insertWithin : Nat → Machine → κ → υ → ByteExec Machine
  | 0, _, _, _ => Execution.fault .outOfFuel
  | depth + 1, m, key, value => do
      let hash := C.hasher key
      let home := home hash m.this.bitMask
      let nth := (nthHeaderBlock home).toNat
      let res ← searchBlock C m nth key (homeIndex home) hash
      match res with
      | some it => do
          let heap ← storeValue C m.heap m.this.memory it value
          pure { m with heap }
      | none => do
          let emptyIdx ← emptyIndex C m nth
          if emptyIdx = 32#32 then do
            let m ← resizeWithin depth m
            insertNewWithin depth m key value
          else placeNew C m nth emptyIdx (homeIndex home) hash key value

/-- `_resize`, with a bound on the depth of calls. -/
def resizeWithin : Nat → Machine → ByteExec Machine
  | 0, _ => Execution.fault .outOfFuel
  | depth + 1, m => do
      Execution.emit (.doubles m.this.capacity)
      if (log2 (m.this.capacity <<< 1)).toNat < 32 then do
        let (heap, memory) ← allocate calloc m.heap (bufferSize C.toLayout (m.this.capacity <<< 1))
        let filled ← (List.range (m.this.capacity >>> 5).toNat).foldlM
          (rehashBlock C (insertNewWithin depth) m.this.memory) (doubled m heap memory)
        let heap ← checked (free filled.heap m.this.memory)
        pure { heap, this := { filled.this with count := m.this.count } }
      else Execution.fault .undefinedShift

/-- `_insert_new`, with a bound on the depth of calls. -/
def insertNewWithin : Nat → Machine → κ → υ → ByteExec Machine
  | 0, _, _, _ => Execution.fault .outOfFuel
  | depth + 1, m, key, value => do
      let hash := C.hasher key
      let home := home hash m.this.bitMask
      let nth := (nthHeaderBlock home).toNat
      let emptyIdx ← emptyIndex C m nth
      if emptyIdx = 32#32 then do
        let m ← resizeWithin depth m
        insertWithin depth m key value
      else placeNew C m nth emptyIdx (homeIndex home) hash key value

end

/-- `insert`. -/
def insert (m : Machine) (key : κ) (value : υ) : ByteExec Machine :=
  insertWithin C calloc callDepth m key value

/-- `find`: the entry whose `value` the pointer returned names. -/
def find (m : Machine) (key : κ) : ByteExec (Option Nat) :=
  let hash := C.hasher key
  let home := home hash m.this.bitMask
  searchBlock C m (nthHeaderBlock home).toNat key (homeIndex home) hash

/-- `erase`: the value erased, or `value_type(-1)`. -/
def erase (m : Machine) (key : κ) : ByteExec (υ × Machine) := do
  let hash := C.hasher key
  let home := home hash m.this.bitMask
  let nth := (nthHeaderBlock home).toNat
  let res ← searchBlock C m nth key (homeIndex home) hash
  match res with
  | some it => do
      let heap ← storeHeader C.pairSize m.heap m.this.memory nth (erasedIdx C.pairSize nth it) 0#16
      let value ← loadValue C heap m.this.memory it
      pure (value, { heap, this := { m.this with count := m.this.count - 1 } })
  | none => pure (C.minusOne, m)

/-- The second lookup of `operator[]`. -/
def findAgain (m : Machine) (key : κ) : ByteExec (Nat × Machine) := do
  let res ← find C m key
  match res with
  | some it => pure (it, m)
  | none => Execution.fault .nullDereference

/-- `operator[]`: the entry its reference names. -/
def index (m : Machine) (key : κ) : ByteExec (Nat × Machine) := do
  let res ← find C m key
  let m ← match res with
    | some _ => pure m
    | none => insert C calloc m key C.defaultValue
  findAgain C m key

/-- `clear`. -/
def clear (m : Machine) : ByteExec Machine := do
  let heap ← checked (store m.heap m.this.memory 0
    (List.replicate (bufferSize C.toLayout m.this.capacity) 0#8))
  pure { heap, this := { m.this with count := 0#32 } }

/-- `size`. -/
def size (m : Machine) : BitVec 32 := m.this.count

/-- `robin_hood_hashmap(const robin_hood_hashmap&)`: the heap and the new object. -/
def copyConstruct (heap : Heap) (other : Object) : ByteExec Machine := do
  let size := bufferSize C.toLayout other.capacity
  let (heap, memory) ← allocate calloc heap size
  let heap ← checked (memcpy heap memory other.memory size)
  pure { heap, this := { other with memory } }

/-- `~robin_hood_hashmap()`: what is left of the heap. -/
def destroy (m : Machine) : ByteExec Heap := checked (free m.heap m.this.memory)

/-- `robin_hood_hashmap(uint32_t capacity)`. -/
def construct (heap : Heap) (capacity : BitVec 32) : ByteExec Machine :=
  let maxOffset := log2 capacity
  if maxOffset.toNat < 64 then do
    let (heap, memory) ← allocate calloc heap (bufferSize C.toLayout capacity)
    pure { heap, this := { count := 0#32, capacity, maxOffset, bitMask := constructorMask maxOffset,
                           memory } }
  else Execution.fault .undefinedShift

/-- One call; `copy` goes on with a copy and destroys the map copied from. -/
def step (m : Machine) : Op κ υ → ByteExec (Answer υ × Machine)
  | .insert key value => do
      let m ← insert C calloc m key value
      pure (.done, m)
  | .find key => do
      let res ← find C m key
      match res with
      | some it => do
          let value ← loadValue C m.heap m.this.memory it
          pure (.pointer (some value), m)
      | none => pure (.pointer none, m)
  | .erase key => do
      let (value, m) ← erase C m key
      pure (.value value, m)
  | .read key => do
      let (it, m) ← index C calloc m key
      let value ← loadValue C m.heap m.this.memory it
      pure (.value value, m)
  | .write key value => do
      let (it, m) ← index C calloc m key
      let heap ← storeValue C m.heap m.this.memory it value
      pure (.done, { m with heap })
  | .clear => do
      let m ← clear C m
      pure (.done, m)
  | .copy => do
      let copied ← copyConstruct C calloc m.heap m.this
      let heap ← destroy { m with heap := copied.heap }
      pure (.done, { copied with heap })
  | .size => pure (.size (size m).toNat, m)

/-- A sequence of calls. -/
def run (m : Machine) : List (Op κ υ) → ByteExec (List (Answer υ) × Machine)
  | [] => pure ([], m)
  | op :: ops => do
      let (answer, m) ← step C calloc m op
      let (answers, m) ← run m ops
      pure (answer :: answers, m)

/-- Construct a map on a heap, run calls on it and destroy it. -/
def session (heap : Heap) (capacity : BitVec 32) (ops : List (Op κ υ)) :
    ByteExec (List (Answer υ) × Heap) := do
  let m ← construct C calloc heap capacity
  let (answers, m) ← run C calloc m ops
  let heap ← destroy m
  pure (answers, heap)

end Members

end Machine

end RobinHoodHashmap
