import RobinHoodHashmap.Machine

/-!
# Tables in a heap

A machine embeds a table when its fields are those of the table and its buffer, one live block over a
frame of others, starts with the blocks.  Loads from the buffer then read headers and pairs of the table,
and stores into it are updates of the table over the same frame.
-/

namespace RobinHoodHashmap

open Avx2 Bytes CHeap Execution Hashmap

variable {κ υ : Type}

/-! ## Reading -/

theorem bytesAt_bytesAt {bytes : List (BitVec 8)} {offset length start size : Nat}
    (inside : start + size ≤ length) :
    bytesAt (bytesAt bytes offset length) start size = bytesAt bytes (offset + start) size := by
  rw [bytesAt, bytesAt, bytesAt, List.drop_take, List.take_take, List.drop_drop,
    Nat.min_eq_left (by omega)]

theorem headerAt_bytesAt {bytes : List (BitVec 8)} {offset length start : Nat}
    (inside : start + 2 ≤ length) :
    headerAt (bytesAt bytes offset length) start = headerAt bytes (offset + start) := by
  have first : start < length := by omega
  have second : start + 1 < length := by omega
  simp [headerAt, bytesAt, List.getD_eq_getElem?_getD, first, second, Nat.add_assoc]

theorem length_bytesAt {bytes : List (BitVec 8)} {offset length : Nat}
    (fits : offset + length ≤ bytes.length) : (bytesAt bytes offset length).length = length := by
  rw [bytesAt, List.length_take, List.length_drop]
  omega

theorem bytesAt_append {bytes rest : List (BitVec 8)} {offset length : Nat}
    (fits : offset + length ≤ bytes.length) :
    bytesAt (bytes ++ rest) offset length = bytesAt bytes offset length := by
  rw [bytesAt, bytesAt, List.drop_append_of_le_length (by omega),
    List.take_append_of_le_length (by rw [List.length_drop]; omega)]

/-- A pointer to a live block that starts with these bytes. -/
def Reads (heap : Heap) (memory : Pointer) (bytes : List (BitVec 8)) : Prop :=
  ∃ address rest, memory = some address ∧ heap.lookup address = some (bytes ++ rest)

namespace Machine

theorem checked_load {heap : Heap} {memory : Pointer} {bytes : List (BitVec 8)} {offset size : Nat}
    (reads : Reads heap memory bytes) (fits : offset + size ≤ bytes.length) :
    checked (load heap memory offset size) = pure (bytesAt bytes offset size) := by
  obtain ⟨address, rest, rfl, live⟩ := reads
  have longer : offset + size ≤ (bytes ++ rest).length := by
    rw [List.length_append]
    omega
  rw [load_of_live live longer, ← bytesAt, bytesAt_append fits]
  rfl

section Reading

variable {C : Codec κ υ} {heap : Heap} {memory : Pointer} {bytes : List (BitVec 8)}
  {s : Hashmap κ υ} {nth : Nat} {block : Block κ υ}
  (reads : Reads heap memory bytes) (encodes : Encodes C.toLayout bytes s)
  (addressed : s.memory[nth]? = some block)

include encodes addressed in
theorem pair_eq (slot : Fin 32) : block.pair slot =
    C.decodePair (bytesAt bytes (keyValueEntryPtr C.pairSize nth slot) C.pairSize) := by
  rw [← encodes.blockAt_eq addressed]
  rfl

include encodes addressed in
theorem entry_fits (slot : Fin 32) :
    keyValueEntryPtr C.pairSize nth slot + C.pairSize ≤ bytes.length := by
  rw [encodes.length_eq, ← Cell.address_pair]
  exact Cell.end_le_allocation C.pairSize (encodes.inside addressed) (.pair slot)

include encodes addressed in
/-- The members of a pair are read from their own bytes. -/
theorem members_eq (slot : Fin 32) :
    C.decodeKey (bytesAt bytes (keyValueEntryPtr C.pairSize nth slot) C.keySize) =
        (block.pair slot).key ∧
      C.decodeValue (bytesAt bytes (keyValueEntryPtr C.pairSize nth slot + C.valueOffset)
        C.valueSize) = (block.pair slot).value := by
  have key_inside := C.key_before_value
  have value_inside := C.value_inside
  rw [pair_eq encodes addressed, C.decodePair_eq _ (length_bytesAt (entry_fits encodes addressed slot)),
    bytesAt_bytesAt (by omega), bytesAt_bytesAt value_inside]
  exact ⟨rfl, rfl⟩

include reads encodes addressed

/-- Loading a register of an allocated block gives the headers of its half. -/
theorem loadRegister_eq {register : Nat} (half : register < 2) {slotOf : Fin 16 → Fin 32}
    (slot_eq : ∀ lane, (slotOf lane : Nat) = lane + 16 * register) :
    loadRegister C.pairSize heap memory nth register =
      pure fun lane => block.header (slotOf lane) := by
  have fits : headerBlockAddress C.pairSize nth + 32 * register + 32 ≤ bytes.length := by
    have last := Cell.end_le_allocation C.pairSize (encodes.inside addressed) (.header 31)
    rw [encodes.length_eq]
    simp only [Cell.address, Cell.offset, Cell.size] at last
    rw [headerBlockAddress]
    change nth * memBlockSize C.pairSize + 2 * 31 + 2 ≤ _ at last
    omega
  rw [loadRegister, checked_load reads fits, pure_bind]
  congr 1
  funext lane
  rw [headerAt_bytesAt (by omega), ← encodes.blockAt_eq addressed, header_blockAt]
  congr 1
  rw [Cell.address, Cell.offset, headerBlockAddress, slot_eq]
  omega

theorem loadFirst_eq :
    loadRegister C.pairSize heap memory nth 0 = pure block.firstHeaders :=
  loadRegister_eq reads encodes addressed (by decide) fun _ => rfl

theorem loadSecond_eq :
    loadRegister C.pairSize heap memory nth 1 = pure block.secondHeaders :=
  loadRegister_eq reads encodes addressed (by decide) fun _ => rfl

theorem loadKey_eq (slot : Fin 32) :
    loadKey C heap memory (keyValueEntryPtr C.pairSize nth slot) = pure (block.pair slot).key := by
  have fits := entry_fits encodes addressed slot
  have key_inside := C.key_before_value
  have value_inside := C.value_inside
  rw [loadKey, checked_load reads (by omega), pure_bind, (members_eq encodes addressed slot).1]

theorem loadValue_eq (slot : Fin 32) :
    loadValue C heap memory (keyValueEntryPtr C.pairSize nth slot) =
      pure (block.pair slot).value := by
  have fits := entry_fits encodes addressed slot
  have value_inside := C.value_inside
  rw [loadValue, checked_load reads (by omega), pure_bind, (members_eq encodes addressed slot).2]

/-- The loop over a register compares the keys the table holds. -/
theorem findLoop_eq [BEq κ] {base : Nat} {slotOf : Fin 16 → Fin 32}
    (slot_eq : ∀ lane, (slotOf lane : Nat) = lane + base) (key : κ) (rounds : Nat) (cmp : Lanes) :
    findLoop C heap memory nth base key rounds cmp =
      silently (RobinHoodHashmap.findLoop block key slotOf rounds cmp) >>= fun res =>
        pure (res.map fun slot : Fin 32 => keyValueEntryPtr C.pairSize nth slot) := by
  induction rounds generalizing cmp with
  | zero => rfl
  | succ rounds induction =>
      rw [findLoop, RobinHoodHashmap.findLoop]
      split
      · rfl
      · dsimp only
        split
        · rename_i inside
          have entry_eq : keyValueEntryPtr C.pairSize nth
              ((getFirstByteIndex cmp >>> 1).toNat + base) =
                keyValueEntryPtr C.pairSize nth
                  (slotOf ⟨(getFirstByteIndex cmp >>> 1).toNat, inside⟩) := by
            rw [slot_eq]
          rw [entry_eq, loadKey_eq reads encodes addressed, pure_bind]
          split
          · rfl
          · exact induction _
        · rfl

theorem searchBlock_eq [BEq κ] {m : Machine} (heap_eq : m.heap = heap)
    (memory_eq : m.this.memory = memory) (key : κ) (home hash : BitVec 64) :
    searchBlock C m nth key (homeIndex home) hash = pure
      ((block.search key home hash).map fun slot : Fin 32 => keyValueEntryPtr C.pairSize nth slot) := by
  subst heap_eq memory_eq
  have first : ∀ lane, (Block.firstSlot lane : Nat) = lane + 0 := fun _ => rfl
  have second : ∀ lane, (Block.secondSlot lane : Nat) = lane + 16 := fun _ => rfl
  calc
    _ = silently (RobinHoodHashmap.searchBlock block key (homeIndex home) hash) >>= fun res =>
        pure (res.map fun slot : Fin 32 => keyValueEntryPtr C.pairSize nth slot) := ?_
    _ = _ := by rw [RobinHoodHashmap.searchBlock_eq, silently_pure, pure_bind]
  rw [searchBlock, RobinHoodHashmap.searchBlock, loadFirst_eq reads encodes addressed, pure_bind,
    findKeyValuePair, findLoop_eq reads encodes addressed first, silently_bind, bind_assoc, bind_assoc]
  refine congrArg _ (funext fun res => ?_)
  cases res with
  | some slot => rfl
  | none =>
      simp only [pure_bind, loadSecond_eq reads encodes addressed]
      rw [findKeyValuePairSecond, findLoop_eq reads encodes addressed second]
      rfl

theorem emptyIndex_eq {m : Machine} (heap_eq : m.heap = heap) (memory_eq : m.this.memory = memory) :
    emptyIndex C m nth = pure (RobinHoodHashmap.emptyIndex block) := by
  subst heap_eq memory_eq
  rw [emptyIndex, loadFirst_eq reads encodes addressed, loadSecond_eq reads encodes addressed,
    RobinHoodHashmap.emptyIndex]
  simp only [pure_bind]
  split <;> rfl

end Reading

end Machine

/-! ## Writing -/

theorem setValue_written (block : Block κ υ) (slot : Fin 32) (header : BitVec 16) (key : κ)
    (value : υ) :
    Block.setValue ⟨Function.update block.header slot header,
        Function.update block.pair slot { block.pair slot with key }⟩ slot value =
      block.fill slot header key value := by
  simp only [Block.setValue, Block.fill, Function.update_self, Function.update_idem]

/-- The machine holds the table in one block over a frame of others. -/
structure Embeds (C : Codec κ υ) (frame : Heap) (s : Hashmap κ υ) (m : Machine) : Prop
    extends Addressable s where
  /-- `_count`. -/
  count_eq : m.this.count = s.count
  /-- `_capacity`. -/
  capacity_eq : m.this.capacity = s.capacity
  /-- `_max_offset`. -/
  maxOffset_eq : m.this.maxOffset = s.maxOffset
  /-- `_bit_mask`. -/
  bitMask_eq' : m.this.bitMask = s.bitMask
  /-- `_memory` names a block outside the frame that starts with the blocks of the table. -/
  buffer : ∃ address bytes rest, address ∉ frame ∧ m.this.memory = some address ∧
    m.heap = frame.insert address (bytes ++ rest) ∧ Encodes C.toLayout bytes s

namespace Embeds

variable {C : Codec κ υ} {frame : Heap} {s : Hashmap κ υ} {m : Machine} {nth : Nat}
  {block : Block κ υ}

theorem reads (embeds : Embeds C frame s m) :
    ∃ bytes, Reads m.heap m.this.memory bytes ∧ Encodes C.toLayout bytes s := by
  obtain ⟨address, bytes, rest, -, memory_eq, heap_eq, encodes⟩ := embeds.buffer
  exact ⟨bytes, ⟨address, rest, memory_eq, by rw [heap_eq, Finmap.lookup_insert]⟩, encodes⟩

theorem reads_frame (embeds : Embeds C frame s m) {address : Nat} {bytes rest : List (BitVec 8)}
    (live : frame.lookup address = some (bytes ++ rest)) : Reads m.heap (some address) bytes := by
  obtain ⟨own, contents, slack, fresh, -, heap_eq, -⟩ := embeds.buffer
  have distinct : address ≠ own := by
    rintro rfl
    exact fresh (Finmap.mem_of_lookup_eq_some live)
  exact ⟨address, rest, rfl, by rw [heap_eq, Finmap.lookup_insert_of_ne _ distinct, live]⟩

/-- A store that changes the bytes as one block changes. -/
theorem store (embeds : Embeds C frame s m) {new : Block κ υ} {offset : Nat}
    {encoded : List (BitVec 8)}
    (written : ∀ bytes, Encodes C.toLayout bytes s → offset + encoded.length ≤ bytes.length ∧
      Encodes C.toLayout (writeAt bytes offset encoded) (s.setBlock nth new)) :
    ∃ heap, checked (CHeap.store m.heap m.this.memory offset encoded) = pure heap ∧
      Embeds C frame (s.setBlock nth new) { m with heap } := by
  obtain ⟨address, bytes, rest, fresh, memory_eq, heap_eq, encodes⟩ := embeds.buffer
  obtain ⟨fits, encodes'⟩ := written bytes encodes
  have longer : offset + encoded.length ≤ (bytes ++ rest).length := by
    rw [List.length_append]
    omega
  refine ⟨_, by rw [heap_eq, memory_eq, store_insert longer, writeAt_append fits]; rfl, ?_⟩
  exact ⟨⟨embeds.capacity_ge, embeds.bitMask_eq⟩, embeds.count_eq, embeds.capacity_eq,
    embeds.maxOffset_eq, embeds.bitMask_eq', address, _, rest, fresh, memory_eq, rfl, encodes'⟩

theorem storeHeader (embeds : Embeds C frame s m) (addressed : s.memory[nth]? = some block)
    (slot : Fin 32) (header : BitVec 16) :
    ∃ heap, Machine.storeHeader C.pairSize m.heap m.this.memory nth slot header = pure heap ∧
      Embeds C frame (s.setBlock nth ⟨Function.update block.header slot header, block.pair⟩)
        { m with heap } := by
  apply embeds.store
  intro bytes encodes
  refine ⟨?_, encodes.write_header addressed slot header⟩
  rw [encodes.length_eq, ← Cell.address_header]
  exact Cell.end_le_allocation C.pairSize (encodes.inside addressed) (.header slot)

/-- A store inside a pair changes the members it covers. -/
theorem storePart (embeds : Embeds C frame s m) (addressed : s.memory[nth]? = some block)
    (slot : Fin 32) {start : Nat} {encoded : List (BitVec 8)} {pair : KeyValuePair κ υ}
    (inside : start + encoded.length ≤ C.pairSize)
    (decoded : ∀ bytes, bytes.length = C.pairSize → C.decodePair bytes = block.pair slot →
      C.decodePair (writeAt bytes start encoded) = pair) :
    ∃ heap, checked (CHeap.store m.heap m.this.memory (keyValueEntryPtr C.pairSize nth slot + start)
        encoded) = pure heap ∧
      Embeds C frame (s.setBlock nth ⟨block.header, Function.update block.pair slot pair⟩)
        { m with heap } := by
  apply embeds.store
  intro bytes encodes
  have entry := Machine.entry_fits encodes addressed slot
  have fits : keyValueEntryPtr C.pairSize nth slot + start + encoded.length ≤ bytes.length := by
    omega
  refine ⟨fits, (length_writeAt fits).trans encodes.length_eq, ?_⟩
  have rewritten : bytesAt (writeAt bytes (keyValueEntryPtr C.pairSize nth slot + start) encoded)
      (keyValueEntryPtr C.pairSize nth slot) C.pairSize =
        writeAt (bytesAt bytes (keyValueEntryPtr C.pairSize nth slot) C.pairSize) start encoded :=
    take_drop_writeAt inside entry
  simp only [Hashmap.setBlock, encodes.memory_eq]
  rw [blocksOf_write_pair C.toLayout (encodes.inside addressed) encodes.length_eq slot
    (Nat.le_add_right _ _) (by omega), rewritten, decoded _ (length_bytesAt entry)
    (Machine.pair_eq encodes addressed slot).symm, encodes.blockAt_eq addressed]

theorem storeKey (embeds : Embeds C frame s m) (addressed : s.memory[nth]? = some block)
    (slot : Fin 32) (key : κ) :
    ∃ heap, Machine.storeKey C m.heap m.this.memory (keyValueEntryPtr C.pairSize nth slot) key =
        pure heap ∧
      Embeds C frame (s.setBlock nth
        ⟨block.header, Function.update block.pair slot { block.pair slot with key }⟩)
        { m with heap } := by
  have key_length := C.length_encodeKey key
  have key_inside := C.key_before_value
  have value_inside := C.value_inside
  change ∃ heap, checked (CHeap.store _ _ (keyValueEntryPtr C.pairSize nth slot + 0) _) = _ ∧ _
  apply embeds.storePart addressed slot (by omega)
  intro bytes length_eq decoded
  have fits : 0 + (C.encodeKey key).length ≤ bytes.length := by omega
  have read_back := bytesAt_writeAt_self fits
  rw [C.decodePair_eq _ length_eq] at decoded
  rw [C.decodePair_eq _ ((length_writeAt fits).trans length_eq), ← key_length, read_back,
    C.decodeKey_encodeKey, bytesAt_writeAt_of_apart fits (Or.inl (by omega)), ← decoded]

theorem storeValue (embeds : Embeds C frame s m) (addressed : s.memory[nth]? = some block)
    (slot : Fin 32) (value : υ) :
    ∃ heap, Machine.storeValue C m.heap m.this.memory (keyValueEntryPtr C.pairSize nth slot) value =
        pure heap ∧
      Embeds C frame (s.setBlock nth (block.setValue slot value)) { m with heap } := by
  have value_length := C.length_encodeValue value
  have key_inside := C.key_before_value
  have value_inside := C.value_inside
  apply embeds.storePart addressed slot (by omega)
  intro bytes length_eq decoded
  have fits : C.valueOffset + (C.encodeValue value).length ≤ bytes.length := by omega
  have read_back := bytesAt_writeAt_self fits
  rw [C.decodePair_eq _ length_eq] at decoded
  rw [C.decodePair_eq _ ((length_writeAt fits).trans length_eq), ← value_length, read_back,
    C.decodeValue_encodeValue, bytesAt_writeAt_of_apart fits (Or.inr (by omega)), ← decoded]

theorem withCount (embeds : Embeds C frame s m) (count : BitVec 32) :
    Embeds C frame (s.withCount count) { m with this := { m.this with count } } := by
  obtain ⟨address, bytes, rest, fresh, memory_eq, heap_eq, encodes⟩ := embeds.buffer
  exact ⟨⟨embeds.capacity_ge, embeds.bitMask_eq⟩, rfl, embeds.capacity_eq, embeds.maxOffset_eq,
    embeds.bitMask_eq', address, bytes, rest, fresh, memory_eq, heap_eq, encodes.length_eq,
    encodes.memory_eq⟩

theorem placeNew (embeds : Embeds C frame s m) {key : κ}
    (block_eq : s.memory[s.homeBlock C.toTraits key]? = some block) {slot : Fin 32}
    (free : block.freeSlot = some slot) (value : υ) :
    ∃ m', Machine.placeNew C m (s.homeBlock C.toTraits key)
        (RobinHoodHashmap.emptyIndex block) (homeIndex (home (C.hasher key) s.bitMask))
        (C.hasher key) key value = pure m' ∧
      Embeds C frame (s.place C.toTraits (s.homeBlock C.toTraits key) block slot key value) m' := by
  have value_eq := emptyIndex_toNat_of_free free
  obtain ⟨first, header_written, embeds₁⟩ := embeds.storeHeader block_eq slot
    (headerOf slot (home (C.hasher key) s.bitMask) (C.hasher key))
  obtain ⟨second, key_written, embeds₂⟩ :=
    embeds₁.storeKey (getElem?_setBlock_self block_eq _) slot key
  obtain ⟨third, value_written, embeds₃⟩ :=
    embeds₂.storeValue (getElem?_setBlock_self (getElem?_setBlock_self block_eq _) _) slot value
  have counted := embeds₃.withCount (s.count + 1)
  simp only [setBlock_setBlock, setValue_written] at counted
  dsimp only at key_written value_written
  refine ⟨_, ?_, counted⟩
  rw [Machine.placeNew, value_eq, slotHeader_eq_headerOf value_eq,
    header_written, pure_bind, keyValuePtr_eq]
  simp only [key_written, pure_bind, value_written, embeds.count_eq]

end Embeds

end RobinHoodHashmap
