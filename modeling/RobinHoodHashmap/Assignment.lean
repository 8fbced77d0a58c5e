import RobinHoodHashmap.Addresses
import RobinHoodHashmap.Objects
import RobinHoodHashmap.Places

/-!
# Assignment operators

Both assignment operators call `realloc` on the buffer of the target, drop the pointer it returns
and copy the bytes of the source through the old pointer.  Copying works exactly when the old
pointer still names a block that is long enough.
-/

namespace RobinHoodHashmap

open Bytes CHeap Hashmap

variable {κ υ ν : Type}

namespace World

/-- `find` on an object: the place its pointer names and the value there. -/
def find [BEq κ] (L : Layout κ υ) (w : World ν) (name : ν) (key : κ) : Exec (Option (Place × υ)) :=
  match w.table L name with
  | none => Execution.fault .outOfBounds
  | some s => do
      let res ← RobinHoodHashmap.find L.toTraits s key
      match res with
      | some place => do
          let value ← readValue L.toTraits s place
          pure (some (place, value))
      | none => pure none

/-- `size` on an object. -/
def size (w : World ν) (name : ν) : BitVec 32 := (w.maps name).count

end World

/-! ## The operators -/

section Operators

variable [DecidableEq ν] (realloc : Heap → Pointer → Nat → Heap × Pointer) (L : Layout κ υ)

/-- The common part of the assignment operators: resize the buffer of `this` without taking the
pointer `realloc` returns, copy the bytes of `other`, then the four fields. -/
def overwriteBuffer (w : World ν) (this other : ν) : ByteExec (World ν) := do
  let size := bufferSize L (w.maps other).capacity
  let (heap, _) ← reallocate realloc w.heap (w.maps this).memory size
  let heap ← checked (memcpy heap (w.maps this).memory (w.maps other).memory size)
  pure
    { heap
      maps := Function.update w.maps this { w.maps other with memory := (w.maps this).memory } }

/-- `operator=(const robin_hood_hashmap&)`. -/
def copyAssign (w : World ν) (this other : ν) : ByteExec (World ν) :=
  if this ≠ other then overwriteBuffer realloc L w this other else pure w

/-- `operator=(robin_hood_hashmap&&)`. -/
def moveAssign (w : World ν) (this other : ν) : ByteExec (World ν) :=
  if this ≠ other then do
    let w ← overwriteBuffer realloc L w this other
    pure { w with maps := Function.update w.maps other { w.maps other with memory := none } }
  else pure w

end Operators

/-! ## What an assignment should do -/

/-- After an assignment `this` owns a buffer for its capacity and is the table `other` was. -/
structure Transfers [BEq κ] (L : Layout κ υ) (w w' : World ν) (this other : ν) : Prop where
  /-- `_memory` names a live block of at least the bytes of the capacity. -/
  live : ∃ address bytes, (w'.maps this).memory = some address ∧
    w'.heap.lookup address = some bytes ∧ bufferSize L (w'.maps this).capacity ≤ bytes.length
  /-- Fields and blocks are those of `other`. -/
  table_eq : w'.table L this = w.table L other
  /-- `find` names the place and reads the value it did on `other`. -/
  find_eq : ∀ key, w'.find L this key = w.find L other key
  /-- `size` answers as it did on `other`. -/
  size_eq : w'.size this = w.size other

/-- A copy assignment moreover leaves `other` alone. -/
structure Copies [BEq κ] (L : Layout κ υ) (w w' : World ν) (this other : ν) : Prop
    extends Transfers L w w' this other where
  /-- The members of `other` are unchanged. -/
  source_eq : w'.maps other = w.maps other
  /-- The table of `other` is unchanged. -/
  source_table : w'.table L other = w.table L other
  /-- The two objects share no block. -/
  apart : (w'.maps this).memory ≠ (w'.maps other).memory

/-- `realloc` returned the pointer it was given, or failed on a block that is long enough as it is. -/
def BufferKept (L : Layout κ υ) (w : World ν) (this other : ν) (returned : Pointer) : Prop :=
  returned = (w.maps this).memory ∨ returned = none ∧
    ∃ block, access w.heap (w.maps this).memory (bufferSize L (w.maps other).capacity) = .ok block

section Proofs

variable {L : Layout κ υ} {w w' : World ν} {this other : ν} {d s : Hashmap κ υ}
  {thisAddress otherAddress : Nat} {bytes rest : List (BitVec 8)}

/-- A world in which `this` has the fields of `other` and a buffer that starts with its bytes. -/
theorem table_of_copied (source : w.Stores L other otherAddress s)
    (live : w.heap.lookup otherAddress = some bytes)
    (fits : bufferSize L (w.maps other).capacity ≤ bytes.length)
    (members : w'.maps this = { w.maps other with memory := some thisAddress })
    (copied : w'.heap.lookup thisAddress =
      some (bytes.take (bufferSize L (w.maps other).capacity) ++ rest)) :
    w'.Stores L this thisAddress s := by
  have same_table : (w'.maps this).table L
      (bytes.take (bufferSize L (w.maps other).capacity) ++ rest) = (w.maps other).table L bytes := by
    rw [members]
    apply Object.table_take
    rw [List.take_append_of_le_length (List.length_take_of_le fits).ge, List.take_take, Nat.min_self]
  refine ⟨by rw [members], _, copied, ?_, ?_⟩
  · rw [members, List.length_append, List.length_take_of_le fits]
    exact Nat.le_add_right _ _
  · have before := source.table_eq
    rw [World.table_of_live source.memory_eq live fits] at before
    exact same_table.trans (Option.some.inj before)

theorem transfers_of_stores [BEq κ] (source : w.Stores L other otherAddress s)
    (stores : w'.Stores L this thisAddress s)
    (count_eq : (w'.maps this).count = (w.maps other).count) : Transfers L w w' this other := by
  obtain ⟨bytes, live, fits, -⟩ := stores.block
  have table_eq := stores.table_eq.trans source.table_eq.symm
  refine ⟨⟨thisAddress, bytes, stores.memory_eq, live, fits⟩, table_eq, fun key => ?_, count_eq⟩
  rw [World.find, World.find, table_eq]

variable [DecidableEq ν] {realloc : Heap → Pointer → Nat → Heap × Pointer} {heap' : Heap}
  {returned : Pointer}

theorem overwriteBuffer_result (outcome : realloc w.heap (w.maps this).memory
      (bufferSize L (w.maps other).capacity) = (heap', returned)) :
    (overwriteBuffer realloc L w this other).result =
      (checked (memcpy heap' (w.maps this).memory (w.maps other).memory
          (bufferSize L (w.maps other).capacity)) >>= fun heap => pure
        (⟨heap, Function.update w.maps this { w.maps other with memory := (w.maps this).memory }⟩ :
          World ν)).result := by
  rw [overwriteBuffer, result_reallocate_bind, outcome]

theorem overwriteBuffer_of_live (memory_eq : (w.maps this).memory = some thisAddress)
    (source : w.Stores L other otherAddress s) (apart : thisAddress ≠ otherAddress)
    (outcome : realloc w.heap (w.maps this).memory (bufferSize L (w.maps other).capacity) =
      (heap', returned))
    (allowed : Realloc w.heap (w.maps this).memory (bufferSize L (w.maps other).capacity) heap'
      returned)
    {block : Nat × List (BitVec 8)}
    (live : access heap' (w.maps this).memory (bufferSize L (w.maps other).capacity) = .ok block) :
    ∃ bytes rest, w.heap.lookup otherAddress = some bytes ∧
      bufferSize L (w.maps other).capacity ≤ bytes.length ∧
      heap'.lookup otherAddress = some bytes ∧
      (overwriteBuffer realloc L w this other).result = .ok
        { heap := heap'.insert thisAddress
            (bytes.take (bufferSize L (w.maps other).capacity) ++ rest)
          maps := Function.update w.maps this
            { w.maps other with memory := some thisAddress } } := by
  obtain ⟨bytes, source_live, fits, -⟩ := source.block
  have kept_live : heap'.lookup otherAddress = some bytes :=
    allowed.lookup_other source_live fun same => apart (Option.some.inj (memory_eq.symm.trans same))
  refine ⟨bytes, block.2.drop (bufferSize L (w.maps other).capacity), source_live, fits, kept_live, ?_⟩
  have copied := memcpy_of_access live (access_of_live kept_live fits)
  rw [memory_eq] at live
  rw [overwriteBuffer_result outcome, source.memory_eq, copied, memory_eq, address_of_access live]
  rfl

/-- Copying through the pointer of a buffer that `realloc` resized in place. -/
theorem overwriteBuffer_of_unfailing (reallocs : Reallocs realloc)
    (memory_eq : (w.maps this).memory = some thisAddress)
    (live : w.heap.lookup thisAddress = some bytes) (source : w.Stores L other otherAddress s)
    (apart : thisAddress ≠ otherAddress)
    (unfailing : Unfailing (overwriteBuffer realloc L w this other)) :
    ∃ w' new, (overwriteBuffer realloc L w this other).result = .ok w' ∧
      w'.Stores L this thisAddress s ∧ w'.heap = w.heap.insert thisAddress new ∧
      w'.maps = Function.update w.maps this { w.maps other with memory := some thisAddress } := by
  have kept := unfailing.reallocate
  have listed := reallocs w.heap (some thisAddress) (bufferSize L (w.maps other).capacity)
    fun address same => by
      obtain rfl := Option.some.inj same
      exact Finmap.mem_of_lookup_eq_some live
  rw [memory_eq] at kept
  rw [kept] at listed
  obtain ⟨new, new_length, resized⟩ := listed.of_kept
  rw [resized] at listed
  have outcome : realloc w.heap (some thisAddress) (bufferSize L (w.maps other).capacity) =
      (w.heap.insert thisAddress new, some thisAddress) := Prod.ext resized kept
  rw [← memory_eq] at outcome listed
  have long_enough : access (w.heap.insert thisAddress new) (w.maps this).memory
      (bufferSize L (w.maps other).capacity) = .ok (thisAddress, new) := by
    rw [memory_eq]
    exact access_of_live (Finmap.lookup_insert _) new_length.ge
  obtain ⟨bytes', rest, source_live, fits, -, overwritten⟩ :=
    overwriteBuffer_of_live memory_eq source apart outcome listed long_enough
  exact ⟨_, _, overwritten, table_of_copied source source_live fits (Function.update_self ..)
    (Finmap.lookup_insert _), Finmap.insert_insert _, rfl⟩

theorem moveAssign_of_live (distinct : this ≠ other)
    (memory_eq : (w.maps this).memory = some thisAddress) (source : w.Stores L other otherAddress s)
    (apart : thisAddress ≠ otherAddress)
    (outcome : realloc w.heap (w.maps this).memory (bufferSize L (w.maps other).capacity) =
      (heap', returned))
    (allowed : Realloc w.heap (w.maps this).memory (bufferSize L (w.maps other).capacity) heap'
      returned)
    {block : Nat × List (BitVec 8)}
    (live : access heap' (w.maps this).memory (bufferSize L (w.maps other).capacity) = .ok block) :
    ∃ w', (moveAssign realloc L w this other).result = .ok w' ∧
      (w'.maps this).memory = some thisAddress ∧ w'.Stores L this thisAddress s ∧
      (w'.maps this).count = (w.maps other).count ∧ (w'.maps other).memory = none := by
  obtain ⟨bytes, rest, source_live, fits, -, overwritten⟩ :=
    overwriteBuffer_of_live memory_eq source apart outcome allowed live
  obtain ⟨w', moved, heap_eq, this_eq, other_eq⟩ : ∃ w' : World ν,
      (moveAssign realloc L w this other).result = .ok w' ∧
        w'.heap = heap'.insert thisAddress
          (bytes.take (bufferSize L (w.maps other).capacity) ++ rest) ∧
        w'.maps this = { w.maps other with memory := some thisAddress } ∧
        (w'.maps other).memory = none := by
    refine ⟨_, by
      rw [moveAssign, if_pos distinct, Execution.result_bind_of_ok overwritten]
      rfl, rfl, ?_, ?_⟩
    · simp only [Function.update_of_ne distinct, Function.update_self]
    · simp only [Function.update_self]
  refine ⟨w', moved, by rw [this_eq], ?_, by rw [this_eq], other_eq⟩
  exact table_of_copied source source_live fits this_eq (by rw [heap_eq, Finmap.lookup_insert])

omit [DecidableEq ν] in
/-- The old pointer names a long enough block after `realloc` exactly when the buffer was kept. -/
theorem access_realloc_iff (target : w.Stores L this thisAddress d)
    (allowed : Realloc w.heap (w.maps this).memory (bufferSize L (w.maps other).capacity) heap'
      returned) :
    (∃ block, access heap' (w.maps this).memory (bufferSize L (w.maps other).capacity) = .ok block) ↔
      BufferKept L w this other returned := by
  obtain ⟨old, old_live, -⟩ := target.block
  rw [BufferKept, target.memory_eq] at *
  rcases allowed.lookup_self old_live with ⟨same, new, new_length, new_live⟩ |
    ⟨moved, not_null, dead⟩ | ⟨failed, rfl⟩
  · exact iff_of_true ⟨_, access_of_live new_live new_length.ge⟩ (Or.inl same)
  · refine iff_of_false ?_ ?_
    · rintro ⟨block, live⟩
      rw [access_of_dead dead] at live
      cases live
    · rintro (same | ⟨null, -⟩)
      · exact moved same
      · exact not_null null
  · subst failed
    exact ⟨fun live => Or.inr ⟨rfl, live⟩, fun kept => (kept.resolve_left nofun).2⟩

theorem overwriteBuffer_of_lost (outcome : realloc w.heap (w.maps this).memory
      (bufferSize L (w.maps other).capacity) = (heap', returned)) {misuse : Misuse}
    (lost : access heap' (w.maps this).memory (bufferSize L (w.maps other).capacity) = .error misuse) :
    (overwriteBuffer realloc L w this other).result = .error (.ofMisuse misuse) := by
  rw [overwriteBuffer_result outcome, memcpy_of_access_error lost]
  rfl

variable [BEq κ]

theorem copies_of_overwritten (distinct : this ≠ other) (source : w.Stores L other otherAddress s)
    (live : w.heap.lookup otherAddress = some bytes)
    (fits : bufferSize L (w.maps other).capacity ≤ bytes.length)
    (kept_live : heap'.lookup otherAddress = some bytes) (apart : thisAddress ≠ otherAddress)
    (heap_eq : w'.heap = heap'.insert thisAddress
      (bytes.take (bufferSize L (w.maps other).capacity) ++ rest))
    (maps_eq : w'.maps = Function.update w.maps this
      { w.maps other with memory := some thisAddress }) : Copies L w w' this other := by
  have this_eq : w'.maps this = { w.maps other with memory := some thisAddress } := by
    rw [maps_eq, Function.update_self]
  have source_eq : w'.maps other = w.maps other := by
    rw [maps_eq, Function.update_of_ne distinct.symm]
  have source_live : w'.heap.lookup otherAddress = some bytes := by
    rw [heap_eq, Finmap.lookup_insert_of_ne _ apart.symm, kept_live]
  have stores := table_of_copied source live fits this_eq
    (show w'.heap.lookup thisAddress = _ by rw [heap_eq, Finmap.lookup_insert])
  refine ⟨transfers_of_stores source stores (by rw [this_eq]), source_eq, ?_, ?_⟩
  · rw [World.table_of_live (source_eq ▸ source.memory_eq) source_live (source_eq ▸ fits), source_eq,
      World.table_of_live source.memory_eq live fits]
  · rw [stores.memory_eq, source_eq, source.memory_eq]
    exact fun same => apart (Option.some.inj same)

/-- Both assignments do their work exactly when `realloc` leaves a long enough block at the old
address. -/
theorem assignment_iff (distinct : this ≠ other) (target : w.Stores L this thisAddress d)
    (source : w.Stores L other otherAddress s) (apart : thisAddress ≠ otherAddress)
    (outcome : realloc w.heap (w.maps this).memory (bufferSize L (w.maps other).capacity) =
      (heap', returned))
    (allowed : Realloc w.heap (w.maps this).memory (bufferSize L (w.maps other).capacity) heap'
      returned) :
    ((∃ w', (copyAssign realloc L w this other).result = .ok w' ∧ Copies L w w' this other) ↔
        BufferKept L w this other returned) ∧
      ((∃ w', (moveAssign realloc L w this other).result = .ok w' ∧ Transfers L w w' this other) ↔
        BufferKept L w this other returned) := by
  rw [← access_realloc_iff target allowed]
  cases live : access heap' (w.maps this).memory (bufferSize L (w.maps other).capacity) with
  | error misuse =>
      have stopped := overwriteBuffer_of_lost outcome live
      have no_block : ¬∃ block, (.error misuse : Except Misuse (Nat × List (BitVec 8))) = .ok block :=
        nofun
      refine ⟨iff_of_false ?_ no_block, iff_of_false ?_ no_block⟩
      · rintro ⟨w', assigned, -⟩
        rw [copyAssign, if_pos distinct, stopped] at assigned
        cases assigned
      · rintro ⟨w', assigned, -⟩
        rw [moveAssign, if_pos distinct, Execution.result_bind_of_error stopped] at assigned
        cases assigned
  | ok block =>
      obtain ⟨bytes, rest, source_live, fits, kept_live, overwritten⟩ :=
        overwriteBuffer_of_live target.memory_eq source apart outcome allowed live
      refine ⟨iff_of_true ?_ ⟨block, rfl⟩, iff_of_true ?_ ⟨block, rfl⟩⟩
      · refine ⟨_, by rw [copyAssign, if_pos distinct]; exact overwritten, ?_⟩
        exact copies_of_overwritten distinct source source_live fits kept_live apart rfl rfl
      · obtain ⟨w', moved, memory_eq, stores, count_eq, -⟩ :=
          moveAssign_of_live distinct target.memory_eq source apart outcome allowed live
        exact ⟨w', moved, transfers_of_stores source stores count_eq⟩

end Proofs

/-! ## Two maps with one key each -/

/-- The object a table is, with its buffer at an address. -/
def Hashmap.object (s : Hashmap κ υ) (address : Nat) : Object where
  count := s.count
  capacity := s.capacity
  maxOffset := s.maxOffset
  bitMask := s.bitMask
  memory := some address

theorem stores_of_encodes {L : Layout κ υ} {w : World ν} {name : ν} {address : Nat}
    {bytes : List (BitVec 8)} {s : Hashmap κ υ} (members : w.maps name = s.object address)
    (live : w.heap.lookup address = some bytes) (encodes : Encodes L bytes s) :
    w.Stores L name address s := by
  refine ⟨by rw [members]; rfl, bytes, live, ?_, ?_⟩
  · rw [members]
    exact encodes.length_eq.ge
  · rw [members]
    exact Hashmap.ext rfl rfl rfl rfl encodes.memory_eq.symm

theorem World.find_of_holds [BEq κ] [LawfulBEq κ] {L : Layout κ υ} {w : World ν} {name : ν}
    {address : Nat} {s : Hashmap κ υ} {place : Place} {key : κ} {value : υ}
    (stores : w.Stores L name address s) (invariant : Invariant L.toTraits s)
    (holds : s.Holds place ⟨key, value⟩) : w.find L name key = pure (some (place, value)) := by
  rw [World.find, stores.table_eq]
  simp only [RobinHoodHashmap.find_of_holds invariant holds, pure_bind, readValue_eq holds]

/-- A new map of words with one key. -/
def holding (capacity : BitVec 32) (key value : BitVec 64) : Hashmap (BitVec 64) (BitVec 64) :=
  (freshTable tempHash capacity).settled tempHash key value

/-- Its buffer: zeroes but for header and pair in the first slot of the home block. -/
def holdingBytes (capacity : BitVec 32) (key value : BitVec 64) : List (BitVec 8) :=
  let s := freshTable tempHash capacity
  let nth := s.homeBlock tempHash key
  let header := headerOf 0 (home (tempHash.hasher key) s.bitMask) (tempHash.hasher key)
  writeAt
    (writeAt (List.replicate (bufferSize tempLayout capacity) 0#8)
      (headerAddress tempHash.pairSize nth 0) (encodeHeader header))
    (keyValuePtr tempHash.pairSize nth 0) (encodeWord key ++ encodeWord value)

theorem encodes_holdingBytes {capacity : BitVec 32} (capacity_ge : 32 ≤ capacity.toNat)
    (key value : BitVec 64) :
    Encodes tempLayout (holdingBytes capacity key value) (holding capacity key value) := by
  have start : Encodes tempLayout (List.replicate (bufferSize tempLayout capacity) 0#8)
      (freshTable tempHash capacity) :=
    ⟨List.length_replicate, (blocksOf_zero tempLayout capacity).symm⟩
  obtain ⟨block, block_eq⟩ := (freshTable_spec tempHash capacity_ge).1.exists_home tempHash key
  obtain rfl : block = Block.zero tempHash := List.eq_of_mem_replicate (List.mem_of_getElem? block_eq)
  have free : (Block.zero tempHash).freeSlot = some 0 := by decide
  have decoded : tempLayout.decodePair (encodeWord key ++ encodeWord value) = ⟨key, value⟩ := by
    have length_eq : (encodeWord key).length = 8 := by simp [encodeWord]
    simp [tempLayout, ← length_eq, decodeWord_encodeWord]
  have filled := start.fill block_eq 0
    (headerOf 0 (home (tempHash.hasher key) (freshTable tempHash capacity).bitMask)
      (tempHash.hasher key)) (by simp [encodeWord, tempLayout, tempHash]) decoded
  rw [holding, settled_of_free block_eq free]
  exact ⟨filled.length_eq, filled.memory_eq⟩

/-- A map of thirty-two slots at address one and a map of sixty-four at address two. -/
def twoMaps : World Bool where
  heap := Finmap.insert 1 (holdingBytes 32#32 6#64 1#64)
    (Finmap.singleton 2 (holdingBytes 64#32 5#64 7#64))
  maps
    | false => (holding 32#32 6#64 1#64).object 1
    | true => (holding 64#32 5#64 7#64).object 2

theorem twoMaps_stores :
    twoMaps.Stores tempLayout false 1 (holding 32#32 6#64 1#64) ∧
      twoMaps.Stores tempLayout true 2 (holding 64#32 5#64 7#64) := by
  constructor
  · exact stores_of_encodes rfl (Finmap.lookup_insert _) (encodes_holdingBytes (by decide) _ _)
  · refine stores_of_encodes rfl ?_ (encodes_holdingBytes (by decide) _ _)
    rw [twoMaps, Finmap.lookup_insert_of_ne _ (by decide), Finmap.lookup_singleton_eq]

theorem twoMaps_reachable :
    Reachable tempHash 32#32 (holding 32#32 6#64 1#64) ∧
      Reachable tempHash 64#32 (holding 64#32 5#64 7#64) :=
  ⟨settled_reachable tempHash (by decide) _ _, settled_reachable tempHash (by decide) _ _⟩

theorem assignment_iff_inPlace :
    (∃ w', (copyAssign reallocInPlace tempLayout twoMaps false true).result = .ok w' ∧
        Copies tempLayout twoMaps w' false true ∧
        ∃ place, w'.find tempLayout false 5#64 = pure (some (place, 7#64))) ∧
      ∃ w', (moveAssign reallocInPlace tempLayout twoMaps false true).result = .ok w' ∧
        Transfers tempLayout twoMaps w' false true ∧
        ∃ place, w'.find tempLayout false 5#64 = pure (some (place, 7#64)) := by
  have resized := reallocInPlace_of_live (bufferSize tempLayout 64#32)
    (Finmap.lookup_insert _ : twoMaps.heap.lookup 1 = _)
  obtain ⟨copied, moved⟩ := assignment_iff (by decide : false ≠ true) twoMaps_stores.1
    twoMaps_stores.2 (by decide) resized
    (.inPlace (Finmap.lookup_insert _) (length_resized _ _) (take_resized _ _))
  obtain ⟨invariant, entries_eq⟩ := freshTable_spec tempHash (by decide : 32 ≤ (64#32).toNat)
  have absent : 5#64 ∉ (freshTable tempHash 64#32).keys := by
    simp [keys, entries_eq]
  obtain ⟨-, place, holds⟩ :=
    settled_spares invariant absent (by simp [crowding, keys, entries_eq]) 7#64
  have found := World.find_of_holds twoMaps_stores.2
    (twoMaps_reachable.2.invariant (by decide)) holds
  obtain ⟨w', assigned, copies⟩ := copied.mpr (Or.inl rfl)
  obtain ⟨w'', assigned', transfers⟩ := moved.mpr (Or.inl rfl)
  exact ⟨⟨w', assigned, copies, place, (copies.find_eq 5#64).trans found⟩,
    w'', assigned', transfers, place, (transfers.find_eq 5#64).trans found⟩

/-- When `realloc` moves the buffer, both assignments write through a dangling pointer. -/
theorem not_assignment_moving :
    Reachable tempHash 32#32 (holding 32#32 6#64 1#64) ∧
      Reachable tempHash 64#32 (holding 64#32 5#64 7#64) ∧
      twoMaps.Stores tempLayout false 1 (holding 32#32 6#64 1#64) ∧
      twoMaps.Stores tempLayout true 2 (holding 64#32 5#64 7#64) ∧
      Reallocs reallocMoving ∧
      (copyAssign reallocMoving tempLayout twoMaps false true).result = .error .outOfBounds ∧
      (moveAssign reallocMoving tempLayout twoMaps false true).result = .error .outOfBounds ∧
      ¬∃ w', (copyAssign reallocMoving tempLayout twoMaps false true).result = .ok w' ∧
        Copies tempLayout twoMaps w' false true := by
  have live : twoMaps.heap.lookup 1 = some (holdingBytes 32#32 6#64 1#64) := Finmap.lookup_insert _
  have stopped : (overwriteBuffer reallocMoving tempLayout twoMaps false true).result =
      .error (.ofMisuse .deadBlock) :=
    overwriteBuffer_of_lost (reallocMoving_of_live (bufferSize tempLayout 64#32) live)
      (access_of_dead (lookup_reallocMoving live _) _)
  have copy_stopped : (copyAssign reallocMoving tempLayout twoMaps false true).result =
      .error .outOfBounds := by
    rw [copyAssign, if_pos (by decide)]
    exact stopped
  refine ⟨twoMaps_reachable.1, twoMaps_reachable.2, twoMaps_stores.1, twoMaps_stores.2,
    reallocs_reallocMoving, copy_stopped, ?_, ?_⟩
  · rw [moveAssign, if_pos (by decide), Execution.result_bind_of_error stopped]
    rfl
  · rintro ⟨w', assigned, -⟩
    rw [copy_stopped] at assigned
    cases assigned

end RobinHoodHashmap
