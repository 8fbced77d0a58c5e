import RobinHoodHashmap.Embedding
import RobinHoodHashmap.FiniteMap

/-!
# The byte machine refines the table

From a machine that embeds a table, every member function makes the accesses the table says, inside
the block, and ends in a machine that embeds the table it should, as long as every request for a
buffer gets one.  The frame of other blocks is the same after every call; while `_resize` runs it also
holds the buffer being rehashed.
-/

namespace RobinHoodHashmap

open Avx2 Bytes CHeap Execution Hashmap

variable {κ υ : Type}

/-- Of the events of an execution on bytes a table shows the doublings. -/
def observation : Observation (BitVec 32) Event := ⟨Event.capacity, Doubles, Event.Succeeds⟩

/-- The execution on bytes runs as the one on tables does while no doubling overflows and no request
fails. -/
abbrev Refines (calloc : Heap → Nat → Heap × Pointer) {α β : Type} (relation : α → β → Prop)
    (left : Exec α) (right : ByteExec β) : Prop :=
  Implements observation (NeverFails calloc) relation left right

/-- An allocation that succeeds has a block of zeroes. -/
theorem Refines.allocate {calloc : Heap → Nat → Heap × Pointer} (callocs : Callocs calloc) {α β : Type}
    {relation : α → β → Prop} {left : Exec α} {heap : Heap} {size : Nat}
    {next : Heap × Pointer → ByteExec β}
    (rest : ∀ address, address ∉ heap → Refines calloc relation left
      (next (heap.insert address (List.replicate size 0#8), some address))) :
    Refines calloc relation left (RobinHoodHashmap.allocate calloc heap size >>= next) := by
  rw [RobinHoodHashmap.allocate, bind_assoc]
  refine Implements.emit_hidden rfl (fun never => never heap size) fun succeeded => ?_
  obtain ⟨address, fresh, allocated⟩ := callocs.allocated succeeded
  rw [pure_bind, allocated]
  exact rest address fresh

/-! ## Growth -/

section Growth

variable [BEq κ] {C : Codec κ υ} {calloc : Heap → Nat → Heap × Pointer} {frame : Heap}
  {s : Hashmap κ υ} {m : Machine} {key : κ} {block : Block κ υ}

theorem Embeds.insertWithin_eq (embeds : Embeds C frame s m)
    (block_eq : s.memory[s.homeBlock C.toTraits key]? = some block) (depth : Nat) (value : υ) :
    Machine.insertWithin C calloc (depth + 1) m key value =
      match block.lookup C.toTraits s.bitMask key with
      | some slot => Machine.storeValue C m.heap m.this.memory
            (keyValueEntryPtr C.pairSize (s.homeBlock C.toTraits key) slot) value >>= fun heap =>
          pure { m with heap }
      | none =>
          if RobinHoodHashmap.emptyIndex block = 32#32 then
            Machine.resizeWithin C calloc depth m >>= fun m =>
              Machine.insertNewWithin C calloc depth m key value
          else Machine.placeNew C m (s.homeBlock C.toTraits key) (RobinHoodHashmap.emptyIndex block)
            (homeIndex (home (C.hasher key) s.bitMask)) (C.hasher key) key value := by
  obtain ⟨bytes, reads, encodes⟩ := embeds.reads
  rw [Machine.insertWithin]
  simp only [embeds.bitMask_eq']
  change (Machine.searchBlock C m (s.homeBlock C.toTraits key) key _ _ >>= _) = _
  rw [Machine.searchBlock_eq reads encodes block_eq rfl rfl, pure_bind, ← Block.lookup]
  cases block.lookup C.toTraits s.bitMask key with
  | some slot => rfl
  | none =>
      change (Machine.emptyIndex C m (s.homeBlock C.toTraits key) >>= _) = _
      rw [Machine.emptyIndex_eq reads encodes block_eq rfl rfl, pure_bind]
      rfl

theorem Embeds.insertNewWithin_eq (embeds : Embeds C frame s m)
    (block_eq : s.memory[s.homeBlock C.toTraits key]? = some block) (depth : Nat) (value : υ) :
    Machine.insertNewWithin C calloc (depth + 1) m key value =
      if RobinHoodHashmap.emptyIndex block = 32#32 then
        Machine.resizeWithin C calloc depth m >>= fun m =>
          Machine.insertWithin C calloc depth m key value
      else Machine.placeNew C m (s.homeBlock C.toTraits key) (RobinHoodHashmap.emptyIndex block)
        (homeIndex (home (C.hasher key) s.bitMask)) (C.hasher key) key value := by
  obtain ⟨bytes, reads, encodes⟩ := embeds.reads
  rw [Machine.insertNewWithin]
  simp only [embeds.bitMask_eq']
  change (Machine.emptyIndex C m (s.homeBlock C.toTraits key) >>= _) = _
  rw [Machine.emptyIndex_eq reads encodes block_eq rfl rfl, pure_bind]
  rfl

theorem insertWithin_embeds (embeds : Embeds C frame s m) (depth : Nat) (value : υ)
    (grown : Refines calloc (Embeds C frame)
      (resizeWithin C.toTraits depth s >>= fun s => insertNewWithin C.toTraits depth s key value)
      (Machine.resizeWithin C calloc depth m >>= fun m =>
        Machine.insertNewWithin C calloc depth m key value)) :
    Refines calloc (Embeds C frame) (insertWithin C.toTraits (depth + 1) s key value)
      (Machine.insertWithin C calloc (depth + 1) m key value) := by
  obtain ⟨block, block_eq⟩ := embeds.exists_home C.toTraits key
  rw [insertWithin_of_block block_eq, embeds.insertWithin_eq block_eq]
  cases block.lookup C.toTraits s.bitMask key with
  | some slot =>
      obtain ⟨heap, written, embeds'⟩ := embeds.storeValue block_eq slot value
      simp only [written, pure_bind]
      exact Implements.pure embeds'
  | none =>
      cases free : block.freeSlot with
      | some slot =>
          obtain ⟨m', placed, embeds'⟩ := embeds.placeNew block_eq free value
          simp only [if_neg (emptyIndex_ne_full free), placed]
          exact Implements.pure embeds'
      | none =>
          simp only [if_pos ((emptyIndex_eq_full_iff block).mpr free)]
          exact grown

theorem insertNewWithin_embeds (embeds : Embeds C frame s m) (depth : Nat) (value : υ)
    (grown : Refines calloc (Embeds C frame)
      (resizeWithin C.toTraits depth s >>= fun s => insertWithin C.toTraits depth s key value)
      (Machine.resizeWithin C calloc depth m >>= fun m =>
        Machine.insertWithin C calloc depth m key value)) :
    Refines calloc (Embeds C frame) (insertNewWithin C.toTraits (depth + 1) s key value)
      (Machine.insertNewWithin C calloc (depth + 1) m key value) := by
  obtain ⟨block, block_eq⟩ := embeds.exists_home C.toTraits key
  rw [insertNewWithin_of_block block_eq, embeds.insertNewWithin_eq block_eq]
  cases free : block.freeSlot with
  | some slot =>
      obtain ⟨m', placed, embeds'⟩ := embeds.placeNew block_eq free value
      simp only [if_neg (emptyIndex_ne_full free), placed]
      exact Implements.pure embeds'
  | none =>
      simp only [if_pos ((emptyIndex_eq_full_iff block).mpr free)]
      exact grown

end Growth

section Rehashing

variable {C : Codec κ υ} {calloc : Heap → Nat → Heap × Pointer} {frame : Heap} {old : Hashmap κ υ}
  {address : Nat} {bytes rest : List (BitVec 8)}
  {insertNew : Hashmap κ υ → κ → υ → Exec (Hashmap κ υ)}
  {insertNew' : Machine → κ → υ → ByteExec Machine}
  (live : frame.lookup address = some (bytes ++ rest)) (encodes : Encodes C.toLayout bytes old)
  (nested : ∀ s m key value, Embeds C frame s m →
    Refines calloc (Embeds C frame) (insertNew s key value) (insertNew' m key value))

include live encodes nested

/-- The loop over a register of an old block moves the pairs that the old table holds. -/
theorem rehashLoop_embeds {i base : Nat} {block : Block κ υ} (addressed : old.memory[i]? = some block)
    {slotOf : Fin 16 → Fin 32} (slot_eq : ∀ lane, (slotOf lane : Nat) = lane + base) (rounds : Nat)
    (haystack : Lanes) {s : Hashmap κ υ} {m : Machine} (embeds : Embeds C frame s m) :
    Refines calloc (Embeds C frame) (rehashLoop insertNew block slotOf rounds haystack s)
      (Machine.rehashLoop C insertNew' (some address) i base rounds haystack m) := by
  induction rounds generalizing haystack s m with
  | zero => exact Implements.fault Fault.outOfFuel
  | succ rounds induction =>
      rw [rehashLoop, Machine.rehashLoop]
      dsimp only
      split
      · rename_i inside
        have pair_eq : backupPairPtr C.pairSize i
            (getFirstByteIndex (cmpeqEpi16 haystack (set1Epi16 1#16)) >>> 1).toNat +
              base * C.pairSize = keyValueEntryPtr C.pairSize i (slotOf ⟨_, inside⟩) := by
          rw [slot_eq, backupPairPtr, keyValueEntryPtr, Nat.add_mul, Nat.add_assoc]
        have reads := embeds.reads_frame live
        simp only [pair_eq, Machine.loadKey_eq reads encodes addressed,
          Machine.loadValue_eq reads encodes addressed, pure_bind]
        exact (nested s m _ _ embeds).bind fun _ _ embeds' => induction _ embeds'
      · exact Implements.pure embeds

theorem rehashBlock_embeds {i : Nat} (inside : i < old.memory.length) {s : Hashmap κ υ} {m : Machine}
    (embeds : Embeds C frame s m) :
    Refines calloc (Embeds C frame) (rehashBlock C.toTraits insertNew old s i)
      (Machine.rehashBlock C insertNew' (some address) m i) := by
  have addressed := List.getElem?_eq_getElem inside
  rw [rehashBlock, headerBlock_eq C.toTraits addressed, pure_bind, Machine.rehashBlock,
    Machine.loadFirst_eq (embeds.reads_frame live) encodes addressed, pure_bind]
  refine (rehashLoop_embeds live encodes nested addressed (fun _ => rfl) 17 _ embeds).bind
    fun s' m' embeds' => ?_
  rw [Machine.loadSecond_eq (embeds'.reads_frame live) encodes addressed, pure_bind]
  exact rehashLoop_embeds live encodes nested addressed (fun _ => rfl) 17 _ embeds'

end Rehashing

section Resize

variable [BEq κ] {C : Codec κ υ} {calloc : Heap → Nat → Heap × Pointer} (callocs : Callocs calloc)
  {frame : Heap} {s : Hashmap κ υ} {m : Machine}

include callocs

omit callocs [BEq κ] in
theorem embeds_zeroed {heap : Heap} {address : Nat} (unused : address ∉ heap) {this : Object}
    {fresh : Hashmap κ υ} (addressable : Addressable fresh)
    (zeroed : fresh.memory = RobinHoodHashmap.calloc C.toTraits fresh.capacity)
    (count_eq : this.count = fresh.count) (capacity_eq : this.capacity = fresh.capacity)
    (maxOffset_eq : this.maxOffset = fresh.maxOffset) (bitMask_eq : this.bitMask = fresh.bitMask)
    (memory_eq : this.memory = some address) :
    Embeds C heap fresh
      ⟨heap.insert address (List.replicate (bufferSize C.toLayout fresh.capacity) 0#8), this⟩ := by
  refine ⟨addressable, count_eq, capacity_eq, maxOffset_eq, bitMask_eq, address,
    List.replicate (bufferSize C.toLayout fresh.capacity) 0#8, [], unused, memory_eq,
    by rw [List.append_nil], List.length_replicate, ?_⟩
  rw [zeroed]
  exact (blocksOf_zero C.toLayout fresh.capacity).symm

omit callocs [BEq κ] in
/-- The machine `_resize` rehashes into holds the doubled table; its frame is all there was. -/
theorem Embeds.doubled (embeds : Embeds C frame s m) (doubles : Doubles s.capacity) {target : Nat}
    (unused : target ∉ m.heap) :
    Embeds C m.heap (doubled C.toTraits s)
      (Machine.doubled m (m.heap.insert target
        (List.replicate (bufferSize C.toLayout (s.capacity <<< 1)) 0#8)) (some target)) := by
  have addressable := addressable_doubled (T := C.toTraits) embeds.toAddressable doubles
  refine embeds_zeroed unused addressable rfl embeds.count_eq ?_ ?_ ?_ rfl
  · rw [embeds.capacity_eq]
    rfl
  · rw [embeds.capacity_eq]
    rfl
  · rw [embeds.capacity_eq]
    rfl

omit callocs [BEq κ] in
theorem Embeds.release {address : Nat} {bytes : List (BitVec 8)} (fresh : address ∉ frame)
    (embeds : Embeds C (frame.insert address bytes) s m) :
    ∃ heap, checked (free m.heap (some address)) = pure heap ∧ Embeds C frame s { m with heap } := by
  obtain ⟨own, contents, rest, apart, memory_eq, heap_eq, encodes⟩ := embeds.buffer
  have distinct : address ≠ own := by
    rintro rfl
    exact apart (Finmap.mem_insert.mpr (Or.inl rfl))
  have own_fresh : own ∉ frame := fun member => apart (Finmap.mem_insert.mpr (Or.inr member))
  have still_fresh : address ∉ frame.insert own (contents ++ rest) := fun member =>
    (Finmap.mem_insert.mp member).elim distinct fresh
  refine ⟨frame.insert own (contents ++ rest), ?_, embeds.toAddressable, embeds.count_eq,
    embeds.capacity_eq, embeds.maxOffset_eq, embeds.bitMask_eq', own, contents, rest, own_fresh,
    memory_eq, rfl, encodes⟩
  rw [heap_eq, Finmap.insert_insert_of_ne frame distinct, free_insert still_fresh]
  rfl

/-- `_resize`: the pairs go from the old buffer to the new one, and the old one is released. -/
theorem resizeWithin_embeds (embeds : Embeds C frame s m) (depth : Nat)
    (nested : ∀ frame s m key value, Embeds C frame s m → Refines calloc (Embeds C frame)
      (insertNewWithin C.toTraits depth s key value)
      (Machine.insertNewWithin C calloc depth m key value)) :
    Refines calloc (Embeds C frame) (resizeWithin C.toTraits (depth + 1) s)
      (Machine.resizeWithin C calloc (depth + 1) m) := by
  obtain ⟨address, bytes, rest, fresh, memory_eq, heap_eq, encodes⟩ := embeds.buffer
  rw [resizeWithin, Machine.resizeWithin, embeds.capacity_eq]
  refine Implements.emit rfl Iff.rfl fun doubles => ?_
  split_ifs with small
  · refine Refines.allocate callocs fun target unused => ?_
    have live : m.heap.lookup address = some (bytes ++ rest) := by
      rw [heap_eq, Finmap.lookup_insert]
    have body : ∀ nth ∈ List.range (s.capacity >>> 5).toNat, ∀ filled filled',
        Embeds C m.heap filled filled' → Refines calloc (Embeds C m.heap)
          (rehashBlock C.toTraits (insertNewWithin C.toTraits depth) s filled nth)
          (Machine.rehashBlock C (Machine.insertNewWithin C calloc depth) m.this.memory filled'
            nth) := by
      intro nth member filled filled' related
      rw [memory_eq]
      refine rehashBlock_embeds live encodes (nested m.heap) ?_ related
      rw [s.allocated, ← shiftRight_five]
      exact List.mem_range.mp member
    refine (Implements.foldlM _ body (embeds.doubled doubles unused)).bind
      fun filled filled' related => ?_
    rw [heap_eq] at related
    obtain ⟨heap, freed, embeds'⟩ := related.release fresh
    rw [memory_eq, freed, pure_bind, embeds.count_eq]
    exact Implements.pure (embeds'.withCount s.count)
  · exact Implements.fault Fault.undefinedShift

/-- The induction is on the call depth, over all frames: a nested call runs over the frame that also
holds the buffer being rehashed. -/
theorem within_embeds (depth : Nat) :
    ∀ (frame : Heap) (s : Hashmap κ υ) (m : Machine), Embeds C frame s m →
      (∀ key value, Refines calloc (Embeds C frame) (insertWithin C.toTraits depth s key value)
          (Machine.insertWithin C calloc depth m key value)) ∧
        (∀ key value, Refines calloc (Embeds C frame)
          (insertNewWithin C.toTraits depth s key value)
          (Machine.insertNewWithin C calloc depth m key value)) ∧
        Refines calloc (Embeds C frame) (resizeWithin C.toTraits depth s)
          (Machine.resizeWithin C calloc depth m) := by
  induction depth with
  | zero =>
      intro frame s m _
      exact ⟨fun _ _ => Implements.fault Fault.outOfFuel, fun _ _ => Implements.fault Fault.outOfFuel,
        Implements.fault Fault.outOfFuel⟩
  | succ depth induction =>
      intro frame s m embeds
      obtain ⟨-, -, resized⟩ := induction frame s m embeds
      refine ⟨fun key value => ?_, fun key value => ?_, ?_⟩
      · exact insertWithin_embeds embeds depth value (resized.bind fun left right related =>
          (induction frame left right related).2.1 key value)
      · exact insertNewWithin_embeds embeds depth value (resized.bind fun left right related =>
          (induction frame left right related).1 key value)
      · exact resizeWithin_embeds callocs embeds depth
          fun frame left right key value related => (induction frame left right related).2.1 key value

theorem insert_embeds (embeds : Embeds C frame s m) (key : κ) (value : υ) :
    Refines calloc (Embeds C frame) (insert C.toTraits s key value)
      (Machine.insert C calloc m key value) :=
  (within_embeds callocs callDepth frame s m embeds).1 key value

end Resize

/-! ## Calls -/

section Calls

variable [BEq κ] {C : Codec κ υ} {calloc : Heap → Nat → Heap × Pointer} {frame : Heap}
  {s : Hashmap κ υ} {m : Machine} {key : κ}

/-- The address of a pair a pointer names. -/
def Place.entry (C : Codec κ υ) (place : Place) : Nat :=
  keyValueEntryPtr C.pairSize place.block place.slot

/-- A place inside the allocation. -/
def Hashmap.Allocated (s : Hashmap κ υ) (place : Place) : Prop :=
  ∃ block, s.memory[place.block]? = some block

namespace Embeds

theorem find_eq (embeds : Embeds C frame s m) (key : κ) :
    ∃ res, find C.toTraits s key = pure res ∧
      Machine.find C m key = pure (res.map (Place.entry C)) ∧ ∀ place ∈ res, s.Allocated place := by
  obtain ⟨block, block_eq⟩ := embeds.exists_home C.toTraits key
  obtain ⟨bytes, reads, encodes⟩ := embeds.reads
  refine ⟨_, RobinHoodHashmap.find_eq block_eq, ?_, ?_⟩
  · rw [Machine.find, embeds.bitMask_eq', Option.map_map]
    exact Machine.searchBlock_eq reads encodes block_eq rfl rfl key _ _
  · intro place found
    obtain ⟨slot, -, rfl⟩ := Option.map_eq_some_iff.mp found
    exact ⟨block, block_eq⟩

omit [BEq κ] in
theorem readValue_eq (embeds : Embeds C frame s m) {place : Place} (allocated : s.Allocated place) :
    ∃ value, readValue C.toTraits s place = pure value ∧
      Machine.loadValue C m.heap m.this.memory (place.entry C) = pure value := by
  obtain ⟨block, block_eq⟩ := allocated
  obtain ⟨bytes, reads, encodes⟩ := embeds.reads
  exact ⟨_, readValue_of_block block_eq, Machine.loadValue_eq reads encodes block_eq place.slot⟩

omit [BEq κ] in
theorem writeValue_eq (embeds : Embeds C frame s m) {place : Place} (allocated : s.Allocated place)
    (value : υ) :
    ∃ s' heap, writeValue C.toTraits s place value = pure s' ∧
      Machine.storeValue C m.heap m.this.memory (place.entry C) value = pure heap ∧
      Embeds C frame s' { m with heap } := by
  obtain ⟨block, block_eq⟩ := allocated
  obtain ⟨heap, written, embeds'⟩ := embeds.storeValue block_eq place.slot value
  exact ⟨_, heap, writeValue_of_block block_eq value, written, embeds'⟩

theorem erase_of_search (embeds : Embeds C frame s m) {block : Block κ υ}
    (block_eq : s.memory[s.homeBlock C.toTraits key]? = some block) :
    Machine.erase C m key =
      match block.lookup C.toTraits s.bitMask key with
      | some slot =>
          Machine.storeHeader C.pairSize m.heap m.this.memory (s.homeBlock C.toTraits key) slot
              0#16 >>= fun heap =>
            Machine.loadValue C heap m.this.memory
                (keyValueEntryPtr C.pairSize (s.homeBlock C.toTraits key) slot) >>= fun value =>
              pure (value, { heap, this := { m.this with count := m.this.count - 1 } })
      | none => pure (C.minusOne, m) := by
  obtain ⟨bytes, reads, encodes⟩ := embeds.reads
  rw [Machine.erase, embeds.bitMask_eq']
  change (Machine.searchBlock C m (s.homeBlock C.toTraits key) key _ _ >>= _) = _
  rw [Machine.searchBlock_eq reads encodes block_eq rfl rfl, pure_bind, ← Block.lookup]
  cases block.lookup C.toTraits s.bitMask key with
  | none => rfl
  | some slot =>
      simp only [Option.map_some]
      change Machine.storeHeader C.pairSize m.heap m.this.memory (s.homeBlock C.toTraits key)
        (erasedIdx C.pairSize (s.homeBlock C.toTraits key) _) 0#16 >>= _ = _
      rw [erasedIdx_keyValueEntryPtr C.pairSize_pos]

/-- `erase` zeroes the header before it reads the value. -/
theorem erase_eq (embeds : Embeds C frame s m) (key : κ) :
    ∃ value s' m', erase C.toTraits s key = pure (value, s') ∧
      Machine.erase C m key = pure (value, m') ∧ Embeds C frame s' m' := by
  obtain ⟨block, block_eq⟩ := embeds.exists_home C.toTraits key
  rw [erase_of_block block_eq, embeds.erase_of_search block_eq]
  cases block.lookup C.toTraits s.bitMask key with
  | none => exact ⟨_, s, m, rfl, rfl, embeds⟩
  | some slot =>
      obtain ⟨heap, zeroed, embeds'⟩ := embeds.storeHeader block_eq slot 0#16
      obtain ⟨bytes', reads', encodes'⟩ := embeds'.reads
      have value_eq := Machine.loadValue_eq reads' encodes' (getElem?_setBlock_self block_eq _) slot
      dsimp only at value_eq
      simp only [zeroed, pure_bind, value_eq]
      refine ⟨_, _, _, rfl, rfl, ?_⟩
      rw [← embeds.count_eq]
      exact embeds'.withCount _

omit [BEq κ] in
theorem clear_eq (embeds : Embeds C frame s m) :
    ∃ m', Machine.clear C m = pure m' ∧ Embeds C frame (clear C.toTraits s) m' := by
  obtain ⟨address, bytes, rest, fresh, memory_eq, heap_eq, encodes⟩ := embeds.buffer
  have fits : 0 + (List.replicate (bufferSize C.toLayout s.capacity) 0#8).length ≤
      bytes.length := by
    rw [List.length_replicate, encodes.length_eq, bufferSize, Nat.zero_add]
  have longer : 0 + (List.replicate (bufferSize C.toLayout s.capacity) 0#8).length ≤
      (bytes ++ rest).length := by
    rw [List.length_append]
    omega
  have cleared : Machine.clear C m = pure ⟨frame.insert address (writeAt bytes 0
      (List.replicate (bufferSize C.toLayout s.capacity) 0#8) ++ rest),
      { m.this with count := 0#32 }⟩ := by
    rw [Machine.clear, embeds.capacity_eq, heap_eq, memory_eq, store_insert longer, writeAt_append fits]
    rfl
  exact ⟨_, cleared, ⟨embeds.capacity_ge, embeds.bitMask_eq⟩, rfl, embeds.capacity_eq,
    embeds.maxOffset_eq, embeds.bitMask_eq', address, _, rest, fresh, memory_eq, rfl, encodes.clear⟩

end Embeds

theorem findAgain_embeds (embeds : Embeds C frame s m) (key : κ) :
    Refines calloc (fun left right => right.1 = left.1.entry C ∧ left.2.Allocated left.1 ∧
        Embeds C frame left.2 right.2)
      (findAgain C.toTraits s key) (Machine.findAgain C m key) := by
  obtain ⟨res, found, machine_found, allocated⟩ := embeds.find_eq key
  rw [Machine.findAgain, machine_found, pure_bind]
  cases res with
  | none =>
      rw [findAgain_of_missing found]
      exact Implements.fault Fault.nullDereference
  | some place =>
      rw [findAgain_of_found found]
      exact Implements.pure ⟨rfl, allocated place rfl, embeds⟩

theorem index_embeds (callocs : Callocs calloc) (embeds : Embeds C frame s m) (key : κ) :
    Refines calloc (fun left right => right.1 = left.1.entry C ∧ left.2.Allocated left.1 ∧
        Embeds C frame left.2 right.2)
      (index C.toTraits s key) (Machine.index C calloc m key) := by
  obtain ⟨res, found, machine_found, allocated⟩ := embeds.find_eq key
  rw [Machine.index, machine_found, pure_bind]
  cases res with
  | none =>
      rw [index_of_missing found]
      exact (insert_embeds callocs embeds key C.defaultValue).bind
        fun _ _ related => findAgain_embeds related key
  | some place =>
      rw [index_of_found found, ← findAgain_of_found found]
      exact findAgain_embeds embeds key

omit [BEq κ] in
/-- A copy holds the table too, over a heap that still holds the original. -/
theorem Embeds.copyConstruct_refines (callocs : Callocs calloc) (embeds : Embeds C frame s m) :
    Refines calloc (Embeds C m.heap) (pure s) (Machine.copyConstruct C calloc m.heap m.this) := by
  obtain ⟨address, bytes, rest, fresh, memory_eq, heap_eq, encodes⟩ := embeds.buffer
  rw [Machine.copyConstruct, embeds.capacity_eq]
  refine Refines.allocate callocs fun target unused => ?_
  have live : m.heap.lookup address = some (bytes ++ rest) := by
    rw [heap_eq, Finmap.lookup_insert]
  have distinct : address ≠ target := by
    rintro rfl
    exact unused (Finmap.mem_of_lookup_eq_some live)
  have length_eq : bytes.length = bufferSize C.toLayout s.capacity := encodes.length_eq
  have fits : bufferSize C.toLayout s.capacity ≤ (bytes ++ rest).length := by
    rw [List.length_append]
    omega
  have zeroed : (List.replicate (bufferSize C.toLayout s.capacity) 0#8).drop
      (bufferSize C.toLayout s.capacity) = [] := by
    rw [List.drop_replicate, Nat.sub_self, List.replicate_zero]
  have copied : memcpy
      (m.heap.insert target (List.replicate (bufferSize C.toLayout s.capacity) 0#8)) (some target)
      (some address) (bufferSize C.toLayout s.capacity) = .ok (m.heap.insert target bytes) := by
    rw [memcpy_of_access (access_of_live (Finmap.lookup_insert m.heap) (List.length_replicate ..).ge)
      (access_of_live ((Finmap.lookup_insert_of_ne _ distinct).trans live) fits), Finmap.insert_insert,
      zeroed, List.append_nil, List.take_left' length_eq]
  dsimp only
  rw [memory_eq, copied]
  exact Implements.pure ⟨embeds.toAddressable, embeds.count_eq, rfl, embeds.maxOffset_eq,
    embeds.bitMask_eq', target, bytes, [], unused, rfl, by rw [List.append_nil], encodes⟩

omit [BEq κ] in
theorem Embeds.destroy_eq (embeds : Embeds C frame s m) : Machine.destroy m = pure frame := by
  obtain ⟨address, bytes, rest, fresh, memory_eq, heap_eq, -⟩ := embeds.buffer
  rw [Machine.destroy, memory_eq, heap_eq, free_insert fresh]
  rfl

omit [BEq κ] in
theorem construct_refines (callocs : Callocs calloc) (heap : Heap) {capacity : BitVec 32}
    (capacity_ge : 32 ≤ capacity.toNat) :
    Refines calloc (Embeds C heap) (construct C.toTraits capacity)
      (Machine.construct C calloc heap capacity) := by
  have small := log2_lt (ne_zero_of_block capacity_ge)
  have addressable := (freshTable_spec C.toTraits capacity_ge).1.toAddressable
  rw [construct_eq C.toTraits (ne_zero_of_block capacity_ge), Machine.construct]
  dsimp only
  rw [if_pos (show (log2 capacity).toNat < 64 by omega)]
  refine Refines.allocate callocs fun address unused => ?_
  exact Implements.pure (embeds_zeroed unused addressable rfl rfl rfl rfl rfl rfl)

/-! ## Runs -/

/-- Equal answers, and a machine that holds the table over the frame. -/
def Answers {α : Type} (C : Codec κ υ) (frame : Heap) (left : α × Hashmap κ υ)
    (right : α × Machine) : Prop :=
  left.1 = right.1 ∧ Embeds C frame left.2 right.2

theorem step_embeds (callocs : Callocs calloc) (embeds : Embeds C frame s m) (op : Op κ υ) :
    Refines calloc (Answers C frame) (step C.toTraits s op) (Machine.step C calloc m op) := by
  cases op with
  | insert key value =>
      exact (insert_embeds callocs embeds key value).bind
        fun _ _ related => Implements.pure ⟨rfl, related⟩
  | find key =>
      obtain ⟨res, found, machine_found, allocated⟩ := embeds.find_eq key
      rw [step, Machine.step, found, machine_found, pure_bind, pure_bind]
      cases res with
      | none => exact Implements.pure ⟨rfl, embeds⟩
      | some place =>
          obtain ⟨value, read, loaded⟩ := embeds.readValue_eq (allocated place rfl)
          simp only [Option.map_some, read, loaded, pure_bind]
          exact Implements.pure ⟨rfl, embeds⟩
  | erase key =>
      obtain ⟨value, s', m', erased, machine_erased, related⟩ := embeds.erase_eq key
      rw [step, Machine.step, erased, machine_erased, pure_bind, pure_bind]
      exact Implements.pure ⟨rfl, related⟩
  | read key =>
      refine (index_embeds callocs embeds key).bind ?_
      rintro ⟨place, left⟩ ⟨_, right⟩ ⟨rfl, allocated, related⟩
      obtain ⟨value, read, loaded⟩ := related.readValue_eq allocated
      simp only [read, loaded, pure_bind]
      exact Implements.pure ⟨rfl, related⟩
  | write key value =>
      refine (index_embeds callocs embeds key).bind ?_
      rintro ⟨place, left⟩ ⟨_, right⟩ ⟨rfl, allocated, related⟩
      obtain ⟨s', heap, written, stored, after⟩ := related.writeValue_eq allocated value
      simp only [written, stored, pure_bind]
      exact Implements.pure ⟨rfl, after⟩
  | clear =>
      obtain ⟨m', cleared, related⟩ := embeds.clear_eq
      rw [Machine.step, cleared, pure_bind]
      exact Implements.pure ⟨rfl, related⟩
  | copy =>
      obtain ⟨address, bytes, rest, fresh, memory_eq, heap_eq, -⟩ := embeds.buffer
      have returned : step C.toTraits s .copy =
          (pure s : Exec (Hashmap κ υ)) >>= fun s => pure (.done, s) := by
        rw [step, copyConstruct_eq, pure_bind]
      rw [returned, Machine.step]
      refine (embeds.copyConstruct_refines callocs).bind fun left copied related => ?_
      rw [heap_eq] at related
      obtain ⟨heap, freed, after⟩ := related.release fresh
      rw [Machine.destroy, memory_eq, freed, pure_bind]
      exact Implements.pure ⟨rfl, after⟩
  | size =>
      rw [step, Machine.step, size, Machine.size, embeds.count_eq]
      exact Implements.pure ⟨rfl, embeds⟩

theorem run_embeds (callocs : Callocs calloc) (embeds : Embeds C frame s m) (ops : List (Op κ υ)) :
    Refines calloc (Answers C frame) (run C.toTraits s ops) (Machine.run C calloc m ops) := by
  induction ops generalizing s m with
  | nil => exact Implements.pure ⟨rfl, embeds⟩
  | cons op ops induction =>
      rw [run, Machine.run]
      refine (step_embeds callocs embeds op).bind ?_
      rintro ⟨answer, left⟩ ⟨_, right⟩ ⟨rfl, related⟩
      refine (induction related).bind ?_
      rintro ⟨answers, last⟩ ⟨_, last'⟩ ⟨rfl, after⟩
      exact Implements.pure ⟨rfl, after⟩

theorem session_embeds (callocs : Callocs calloc) (heap : Heap) {capacity : BitVec 32}
    (capacity_ge : 32 ≤ capacity.toNat) (ops : List (Op κ υ)) :
    Refines calloc (fun left right => left.1 = right.1 ∧ right.2 = heap)
      (session C.toTraits capacity ops) (Machine.session C calloc heap capacity ops) := by
  rw [session, Machine.session]
  refine (construct_refines callocs heap capacity_ge).bind fun fresh m embeds => ?_
  rw [← bind_pure (run C.toTraits fresh ops)]
  refine (run_embeds callocs embeds ops).bind ?_
  rintro ⟨answers, s⟩ ⟨_, m'⟩ ⟨rfl, embeds'⟩
  dsimp only
  rw [embeds'.destroy_eq, pure_bind]
  exact Implements.pure ⟨rfl, rfl⟩

variable [LawfulBEq κ] [DecidableEq κ]

/-- Construct, call and destroy on bytes, when every allocation succeeds and no doubling overflows:
every access is inside a live block, the answers are those of a finite map, and the heap is what it was
before. -/
theorem machine_session_refines (C : Codec κ υ) (callocs : Callocs calloc) (heap : Heap)
    {capacity : BitVec 32} (capacity_ge : 32 ≤ capacity.toNat) (ops : List (Op κ υ))
    (unfailing : Unfailing (Machine.session C calloc heap capacity ops)) :
    (Machine.session C calloc heap capacity ops).result =
      .ok ((referenceRun C.toTraits ∅ ops).1, heap) := by
  have alike := session_embeds (C := C) callocs heap capacity_ge ops
  obtain ⟨s, returned, -⟩ := session_reachable C.toTraits capacity_ge (alike.follows unfailing).2
  obtain ⟨⟨answers, heap'⟩, machine_returned, rfl, rfl⟩ := alike.result_right unfailing returned
  exact machine_returned

end Calls

theorem machine_session_refines_words :
    (Machine.session tempCodec callocAfter (Finmap.singleton 7 [1#8]) 48#32 exercise).result =
      .ok ((referenceRun tempHash ∅ exercise).1, Finmap.singleton 7 [1#8]) := by
  have alike := session_embeds (C := tempCodec) callocs_callocAfter (Finmap.singleton 7 [1#8])
    (show 32 ≤ (48#32).toNat by decide) exercise
  exact machine_session_refines tempCodec callocs_callocAfter _ (by decide) exercise
    (alike.reaches neverFails_callocAfter exercise_outcome.1)

end RobinHoodHashmap
