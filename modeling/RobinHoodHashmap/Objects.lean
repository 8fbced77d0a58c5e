import RobinHoodHashmap.Growth
import RobinHoodHashmap.HeapAccess
import RobinHoodHashmap.Layout

/-!
# Objects over a heap

The members of map objects, by name over one heap, and executions on bytes.  These log every doubling,
and every request to the allocator with its outcome: no member function tests what it gets.
-/

namespace RobinHoodHashmap

open CHeap

variable {κ υ ν : Type}

/-- The members of a `robin_hood_hashmap` object. -/
structure Object where
  /-- `_count`. -/
  count : BitVec 32
  /-- `_capacity`. -/
  capacity : BitVec 32
  /-- `_max_offset`. -/
  maxOffset : BitVec 32
  /-- `_bit_mask`. -/
  bitMask : BitVec 32
  /-- `_memory`. -/
  memory : Pointer

/-- Bytes a buffer for `capacity` slots needs. -/
def bufferSize (L : Layout κ υ) (capacity : BitVec 32) : Nat := capacity.toNat * uintSize L.pairSize

/-! ## Executions on bytes -/

/-- What an execution on bytes logs. -/
inductive Event where
  /-- `_capacity << 1`, of this capacity. -/
  | doubles (capacity : BitVec 32)
  /-- A call of `calloc` that returned `memory`. -/
  | allocates (memory : Pointer)
  /-- A call of `realloc` on `memory` that returned `returned`. -/
  | reallocates (memory returned : Pointer)
  deriving DecidableEq

namespace Event

/-- The doubling stays inside 32 bits; the request gets a block, from `realloc` the one it was about. -/
def Succeeds : Event → Prop
  | doubles capacity => Doubles capacity
  | allocates memory => memory ≠ none
  | reallocates memory returned => returned = memory

instance : DecidablePred Succeeds
  | doubles capacity => inferInstanceAs (Decidable (Doubles capacity))
  | allocates memory => inferInstanceAs (Decidable (memory ≠ none))
  | reallocates memory returned => inferInstanceAs (Decidable (returned = memory))

/-- The table knows of doublings alone. -/
def capacity : Event → Option (BitVec 32)
  | doubles capacity => some capacity
  | _ => none

end Event

/-- Executions on bytes. -/
abbrev ByteExec := Execution Event Fault

/-- No doubling overflows and no request fails. -/
def Unfailing {α : Type} (execution : ByteExec α) : Prop := execution.Always Event.Succeeds

instance {α : Type} (execution : ByteExec α) : Decidable (Unfailing execution) :=
  decidable_of_iff ((execution.log.all fun event => decide event.Succeeds) = true)
    (by simp [Unfailing, Execution.Always])

/-- The fault an invalid access is. -/
def Fault.ofMisuse : Misuse → Fault
  | .nullPointer => .nullDereference
  | .deadBlock => .outOfBounds
  | .outOfRange => .outOfBounds

/-- Perform an access, which may fault. -/
def checked {α : Type} : Except Misuse α → ByteExec α
  | .ok value => pure value
  | .error misuse => Execution.fault (.ofMisuse misuse)

/-- `calloc`. -/
def allocate (calloc : Heap → Nat → Heap × Pointer) (heap : Heap) (size : Nat) :
    ByteExec (Heap × Pointer) := do
  Execution.emit (.allocates (calloc heap size).2)
  pure (calloc heap size)

/-- `realloc`. -/
def reallocate (realloc : Heap → Pointer → Nat → Heap × Pointer) (heap : Heap) (memory : Pointer)
    (size : Nat) : ByteExec (Heap × Pointer) := do
  Execution.emit (.reallocates memory (realloc heap memory size).2)
  pure (realloc heap memory size)

theorem result_allocate_bind {α : Type} (calloc : Heap → Nat → Heap × Pointer) (heap : Heap)
    (size : Nat) (next : Heap × Pointer → ByteExec α) :
    (allocate calloc heap size >>= next).result = (next (calloc heap size)).result := rfl

theorem result_reallocate_bind {α : Type} (realloc : Heap → Pointer → Nat → Heap × Pointer)
    (heap : Heap) (memory : Pointer) (size : Nat) (next : Heap × Pointer → ByteExec α) :
    (reallocate realloc heap memory size >>= next).result =
      (next (realloc heap memory size)).result := rfl

/-- A `realloc` that does not fail returns its argument. -/
theorem Unfailing.reallocate {α : Type} {realloc : Heap → Pointer → Nat → Heap × Pointer} {heap : Heap}
    {memory : Pointer} {size : Nat} {next : Heap × Pointer → ByteExec α}
    (unfailing : Unfailing (RobinHoodHashmap.reallocate realloc heap memory size >>= next)) :
    (realloc heap memory size).2 = memory := by
  rw [RobinHoodHashmap.reallocate, bind_assoc] at unfailing
  exact ((Execution.always_emit_bind _ _ _).mp unfailing).1

/-! ## Maps by name -/

/-- Map objects by name, over one heap. -/
structure World (ν : Type) where
  /-- Live blocks. -/
  heap : Heap
  /-- Members of the objects. -/
  maps : ν → Object

/-- The table an object is when its buffer holds these bytes. -/
def Object.table (L : Layout κ υ) (object : Object) (bytes : List (BitVec 8)) : Hashmap κ υ where
  count := object.count
  capacity := object.capacity
  maxOffset := object.maxOffset
  bitMask := object.bitMask
  memory := blocksOf L object.capacity bytes
  allocated := length_blocksOf L object.capacity bytes

/-- A table is read from the bytes its capacity accounts for. -/
theorem Object.table_take (L : Layout κ υ) (object : Object) {bytes bytes' : List (BitVec 8)}
    (same : bytes.take (bufferSize L object.capacity) = bytes'.take (bufferSize L object.capacity)) :
    object.table L bytes = object.table L bytes' := by
  apply Hashmap.ext <;> try rfl
  calc
    blocksOf L object.capacity bytes =
        blocksOf L object.capacity (bytes.take (bufferSize L object.capacity)) :=
      (blocksOf_take L object.capacity bytes).symm
    _ = blocksOf L object.capacity (bytes'.take (bufferSize L object.capacity)) := by rw [same]
    _ = blocksOf L object.capacity bytes' := blocksOf_take L object.capacity bytes'

namespace World

/-- The table an object is, if its pointer names a live block that is long enough. -/
def table (L : Layout κ υ) (w : World ν) (name : ν) : Option (Hashmap κ υ) :=
  match access w.heap (w.maps name).memory (bufferSize L (w.maps name).capacity) with
  | .ok (_, bytes) => some ((w.maps name).table L bytes)
  | .error _ => none

/-- An object is the table `s` in the block at an address, which may be longer than needed. -/
structure Stores (L : Layout κ υ) (w : World ν) (name : ν) (address : Nat) (s : Hashmap κ υ) :
    Prop where
  /-- `_memory` names the block. -/
  memory_eq : (w.maps name).memory = some address
  /-- The block is live, has room for the capacity and holds the table. -/
  block : ∃ bytes, w.heap.lookup address = some bytes ∧
    bufferSize L (w.maps name).capacity ≤ bytes.length ∧ (w.maps name).table L bytes = s

variable {L : Layout κ υ} {w : World ν} {name : ν} {address : Nat} {s : Hashmap κ υ}

theorem table_of_live {bytes : List (BitVec 8)} (memory_eq : (w.maps name).memory = some address)
    (live : w.heap.lookup address = some bytes)
    (fits : bufferSize L (w.maps name).capacity ≤ bytes.length) :
    w.table L name = some ((w.maps name).table L bytes) := by
  rw [table, memory_eq, access_of_live live fits]

theorem Stores.table_eq (stores : w.Stores L name address s) : w.table L name = some s := by
  obtain ⟨bytes, live, fits, table_eq⟩ := stores.block
  rw [table_of_live stores.memory_eq live fits, table_eq]

theorem Stores.capacity_eq (stores : w.Stores L name address s) :
    (w.maps name).capacity = s.capacity := by
  obtain ⟨bytes, -, -, table_eq⟩ := stores.block
  rw [← table_eq]
  rfl

end World

end RobinHoodHashmap
