import RobinHoodHashmap.Contents

/-!
# The representation invariant

In every occupied slot the header is the one its key demands and the block is the home block of
its key; keys are distinct and the count is the number of entries.  Under this invariant lookup is
exact, and overwriting, placing, erasing and clearing preserve it while changing the entries by
the one pair concerned.
-/

namespace RobinHoodHashmap

variable {κ υ : Type}

namespace Block

/-- The search of a block that an operation on `key` performs. -/
def lookup [BEq κ] (T : Traits κ υ) (bitMask : BitVec 32) (block : Block κ υ) (key : κ) :
    Option (Fin 32) :=
  block.search key (home (T.hasher key) bitMask) (T.hasher key)

section Lookup

variable [BEq κ] {T : Traits κ υ} {bitMask : BitVec 32} {block : Block κ υ} {key : κ}
  {slot : Fin 32}

theorem lookup_hit (found : block.lookup T bitMask key = some slot) :
    block.header slot = headerOf slot (home (T.hasher key) bitMask) (T.hasher key) ∧
      (key == (block.pair slot).key) = true := by
  rw [lookup, search, Fin.find?_eq_some_iff] at found
  simpa using found.1

theorem occupied_of_lookup (found : block.lookup T bitMask key = some slot) :
    block.header slot ≠ 0#16 := by
  rw [(lookup_hit found).1]
  exact headerOf_ne_zero _ _ _

theorem key_of_lookup [LawfulBEq κ] (found : block.lookup T bitMask key = some slot) :
    (block.pair slot).key = key :=
  (LawfulBEq.eq_of_beq (lookup_hit found).2).symm

theorem lookup_miss (missing : block.lookup T bitMask key = none)
    (header_eq : block.header slot = headerOf slot (home (T.hasher key) bitMask) (T.hasher key)) :
    (key == (block.pair slot).key) = false := by
  rw [lookup, search, Fin.find?_eq_none_iff] at missing
  simpa [header_eq] using missing slot

end Lookup

end Block

namespace Hashmap

/-- The block an operation on `key` addresses. -/
def homeBlock (T : Traits κ υ) (s : Hashmap κ υ) (key : κ) : Nat :=
  (nthHeaderBlock (home (T.hasher key) s.bitMask)).toNat

/-- `floor(log2 _capacity)`. -/
def exponent (s : Hashmap κ υ) : Nat := Nat.log 2 s.capacity.toNat

/-- Put a new pair into a free slot, under the header its key demands, and count it. -/
def place (T : Traits κ υ) (s : Hashmap κ υ) (nth : Nat) (block : Block κ υ) (slot : Fin 32)
    (key : κ) (value : υ) : Hashmap κ υ :=
  (s.setBlock nth (block.fill slot
    (headerOf slot (home (T.hasher key) s.bitMask) (T.hasher key)) key value)).withCount
      (s.count + 1)

/-- Capacity and mask under which every home block is allocated. -/
structure Addressable (s : Hashmap κ υ) : Prop where
  /-- The table holds at least one block. -/
  capacity_ge : 32 ≤ s.capacity.toNat
  /-- The mask selects the low bits below the leading bit of the capacity. -/
  bitMask_eq : s.bitMask.toNat = 2 ^ s.exponent - 1

end Hashmap

open Hashmap

/-! ## Addressing -/

theorem Hashmap.Addressable.capacity_ne_zero {s : Hashmap κ υ} (addressable : Addressable s) :
    s.capacity.toNat ≠ 0 := by
  have := addressable.capacity_ge
  omega

theorem Hashmap.Addressable.exponent_ge {s : Hashmap κ υ} (addressable : Addressable s) :
    5 ≤ s.exponent :=
  Nat.le_log_of_pow_le (by decide) addressable.capacity_ge

theorem Hashmap.Addressable.homeBlock_eq {s : Hashmap κ υ} (addressable : Addressable s)
    (T : Traits κ υ) (key : κ) :
    s.homeBlock T key = blockUnder s.exponent (T.hasher key) :=
  nthHeaderBlock_toNat addressable.bitMask_eq _

/-- The addressable blocks are allocated, also when the capacity is no power of two. -/
theorem Hashmap.Addressable.blocks_le {s : Hashmap κ υ} (addressable : Addressable s) :
    2 ^ (s.exponent - 5) ≤ s.memory.length := by
  have power_le : 2 ^ s.exponent ≤ s.capacity.toNat :=
    Nat.pow_log_le_self 2 addressable.capacity_ne_zero
  rw [s.allocated, ← two_pow_div_thirtyTwo addressable.exponent_ge]
  exact Nat.div_le_div_right power_le

theorem Hashmap.Addressable.homeBlock_lt {s : Hashmap κ υ} (addressable : Addressable s)
    (T : Traits κ υ) (key : κ) : s.homeBlock T key < s.memory.length := by
  rw [addressable.homeBlock_eq]
  exact (blockUnder_lt addressable.exponent_ge _).trans_le addressable.blocks_le

theorem Hashmap.Addressable.exists_home {s : Hashmap κ υ} (addressable : Addressable s)
    (T : Traits κ υ) (key : κ) : ∃ block, s.memory[s.homeBlock T key]? = some block :=
  ⟨_, List.getElem?_eq_getElem (addressable.homeBlock_lt T key)⟩

theorem headerBlock_eq (T : Traits κ υ) {s : Hashmap κ υ} {nth : Nat} {block : Block κ υ}
    (block_eq : s.memory[nth]? = some block) : headerBlock T s nth = pure block := by
  obtain ⟨inside, item_eq⟩ := List.getElem?_eq_some_iff.mp block_eq
  have fits : (nth + 1) * memBlockSize T.pairSize ≤ s.capacity.toNat * uintSize T.pairSize := by
    rw [block_fits_iff]
    rw [s.allocated] at inside
    omega
  rw [headerBlock, dif_pos fits]
  exact congrArg pure item_eq

theorem headerBlock_missing (T : Traits κ υ) {s : Hashmap κ υ} {nth : Nat}
    (missing : s.memory[nth]? = none) : headerBlock T s nth = Execution.fault .outOfBounds := by
  rw [headerBlock, dif_neg]
  rw [List.getElem?_eq_none_iff, s.allocated] at missing
  rw [block_fits_iff]
  omega

/-! ## Operations on one block -/

section Operations

variable {T : Traits κ υ} {s : Hashmap κ υ} {key : κ} {block : Block κ υ}

theorem readValue_of_block {place : Place} (block_eq : s.memory[place.block]? = some block) :
    readValue T s place = pure (block.pair place.slot).value := by
  rw [readValue, headerBlock_eq T block_eq, pure_bind]

theorem writeValue_of_block {place : Place} (block_eq : s.memory[place.block]? = some block)
    (value : υ) : writeValue T s place value =
      pure (s.setBlock place.block (block.setValue place.slot value)) := by
  rw [writeValue, headerBlock_eq T block_eq, pure_bind]

theorem emptyIndex_toNat_of_free {slot : Fin 32} (free : block.freeSlot = some slot) :
    (emptyIndex block).toNat = slot := by
  rw [emptyIndex_toNat, free]
  rfl

theorem placeNew_eq {nth : Nat} {slot : Fin 32} (free : block.freeSlot = some slot) (value : υ) :
    placeNew T s nth block (emptyIndex block) (homeIndex (home (T.hasher key) s.bitMask))
      key value = pure (s.place T nth block slot key value) := by
  have value_eq := emptyIndex_toNat_of_free free
  have slot_eq : ∀ inside, (⟨(emptyIndex block).toNat, inside⟩ : Fin 32) = slot :=
    fun _ => Fin.ext value_eq
  rw [placeNew, dif_pos (value_eq ▸ slot.isLt), slot_eq, slotHeader_eq_headerOf value_eq]
  rfl

theorem emptyIndex_ne_full {slot : Fin 32} (free : block.freeSlot = some slot) :
    emptyIndex block ≠ 32#32 := by
  rw [Ne, emptyIndex_eq_full_iff, free]
  exact Option.some_ne_none slot

variable [BEq κ] (block_eq : s.memory[s.homeBlock T key]? = some block)

include block_eq

theorem find_eq :
    find T s key = pure ((block.lookup T s.bitMask key).map (Place.mk (s.homeBlock T key))) := by
  change (headerBlock T s (s.homeBlock T key) >>= _) = _
  rw [headerBlock_eq T block_eq]
  simp only [pure_bind, searchBlock_eq]
  rfl

theorem erase_of_block :
    erase T s key =
      match block.lookup T s.bitMask key with
      | some slot => pure ((block.pair slot).value,
          (s.setBlock (s.homeBlock T key) (block.clearHeader slot)).withCount (s.count - 1))
      | none => pure (T.minusOne, s) := by
  change (headerBlock T s (s.homeBlock T key) >>= _) = _
  rw [headerBlock_eq T block_eq]
  simp only [pure_bind, searchBlock_eq]
  rfl

theorem erase_of_found {slot : Fin 32} (found : block.lookup T s.bitMask key = some slot) :
    erase T s key = pure ((block.pair slot).value,
      (s.setBlock (s.homeBlock T key) (block.clearHeader slot)).withCount (s.count - 1)) := by
  rw [erase_of_block block_eq, found]

theorem erase_of_missing (missing : block.lookup T s.bitMask key = none) :
    erase T s key = pure (T.minusOne, s) := by
  rw [erase_of_block block_eq, missing]

theorem insertWithin_of_block (depth : Nat) (value : υ) :
    insertWithin T (depth + 1) s key value =
      match block.lookup T s.bitMask key with
      | some slot => pure (s.setBlock (s.homeBlock T key) (block.setValue slot value))
      | none =>
          match block.freeSlot with
          | some slot => pure (s.place T (s.homeBlock T key) block slot key value)
          | none => resizeWithin T depth s >>= fun s => insertNewWithin T depth s key value := by
  rw [insertWithin]
  change (headerBlock T s (s.homeBlock T key) >>= _) = _
  rw [headerBlock_eq T block_eq]
  simp only [pure_bind, searchBlock_eq]
  rw [← Block.lookup]
  cases block.lookup T s.bitMask key with
  | some slot => rfl
  | none =>
      cases free : block.freeSlot with
      | some slot =>
          simp only [if_neg (emptyIndex_ne_full free)]
          exact placeNew_eq free value
      | none => simp only [if_pos ((emptyIndex_eq_full_iff block).mpr free)]

theorem insertWithin_of_found (depth : Nat) (value : υ) {slot : Fin 32}
    (found : block.lookup T s.bitMask key = some slot) :
    insertWithin T (depth + 1) s key value =
      pure (s.setBlock (s.homeBlock T key) (block.setValue slot value)) := by
  rw [insertWithin_of_block block_eq, found]

theorem insertWithin_of_free (depth : Nat) (value : υ)
    (missing : block.lookup T s.bitMask key = none) {slot : Fin 32}
    (free : block.freeSlot = some slot) :
    insertWithin T (depth + 1) s key value =
      pure (s.place T (s.homeBlock T key) block slot key value) := by
  rw [insertWithin_of_block block_eq, missing, free]

theorem insertWithin_of_full (depth : Nat) (value : υ)
    (missing : block.lookup T s.bitMask key = none) (full : block.freeSlot = none) :
    insertWithin T (depth + 1) s key value =
      resizeWithin T depth s >>= fun s => insertNewWithin T depth s key value := by
  rw [insertWithin_of_block block_eq, missing, full]

theorem insertNewWithin_of_block (depth : Nat) (value : υ) :
    insertNewWithin T (depth + 1) s key value =
      match block.freeSlot with
      | some slot => pure (s.place T (s.homeBlock T key) block slot key value)
      | none => resizeWithin T depth s >>= fun s => insertWithin T depth s key value := by
  rw [insertNewWithin]
  change (headerBlock T s (s.homeBlock T key) >>= _) = _
  rw [headerBlock_eq T block_eq, pure_bind]
  cases free : block.freeSlot with
  | some slot =>
      simp only [if_neg (emptyIndex_ne_full free)]
      exact placeNew_eq free value
  | none => simp only [if_pos ((emptyIndex_eq_full_iff block).mpr free)]

theorem insertNewWithin_of_free (depth : Nat) (value : υ) {slot : Fin 32}
    (free : block.freeSlot = some slot) :
    insertNewWithin T (depth + 1) s key value =
      pure (s.place T (s.homeBlock T key) block slot key value) := by
  rw [insertNewWithin_of_block block_eq, free]

theorem insertNewWithin_of_full (depth : Nat) (value : υ) (full : block.freeSlot = none) :
    insertNewWithin T (depth + 1) s key value =
      resizeWithin T depth s >>= fun s => insertWithin T depth s key value := by
  rw [insertNewWithin_of_block block_eq, full]

omit block_eq

/-- What `insert` can do in any table: stop outside the allocation, assign to the stored key, fill a
free slot, or grow and go on. -/
theorem insertWithin_cases (T : Traits κ υ) (s : Hashmap κ υ) (depth : Nat) (key : κ) (value : υ) :
    insertWithin T (depth + 1) s key value = Execution.fault .outOfBounds ∨
      (∃ block slot, s.memory[s.homeBlock T key]? = some block ∧
        block.lookup T s.bitMask key = some slot ∧ insertWithin T (depth + 1) s key value =
          pure (s.setBlock (s.homeBlock T key) (block.setValue slot value))) ∨
      (∃ block slot, s.memory[s.homeBlock T key]? = some block ∧
        block.lookup T s.bitMask key = none ∧ block.freeSlot = some slot ∧
          insertWithin T (depth + 1) s key value =
            pure (s.place T (s.homeBlock T key) block slot key value)) ∨
      ∃ block, s.memory[s.homeBlock T key]? = some block ∧
        block.lookup T s.bitMask key = none ∧ block.freeSlot = none ∧
          insertWithin T (depth + 1) s key value =
            (resizeWithin T depth s >>= fun s => insertNewWithin T depth s key value) := by
  cases block_eq : s.memory[s.homeBlock T key]? with
  | none =>
      left
      rw [insertWithin]
      change (headerBlock T s (s.homeBlock T key) >>= _) = _
      rw [headerBlock_missing T block_eq]
      rfl
  | some block =>
      right
      cases found : block.lookup T s.bitMask key with
      | some slot =>
          exact Or.inl ⟨block, slot, rfl, found, insertWithin_of_found block_eq depth value found⟩
      | none =>
          right
          cases free : block.freeSlot with
          | some slot =>
              exact Or.inl ⟨block, slot, rfl, found, free,
                insertWithin_of_free block_eq depth value found free⟩
          | none =>
              exact Or.inr ⟨block, rfl, found, free,
                insertWithin_of_full block_eq depth value found free⟩

/-- What `_insert_new` can do: the same without the search for the key. -/
theorem insertNewWithin_cases (T : Traits κ υ) (s : Hashmap κ υ) (depth : Nat) (key : κ)
    (value : υ) :
    insertNewWithin T (depth + 1) s key value = Execution.fault .outOfBounds ∨
      (∃ block slot, s.memory[s.homeBlock T key]? = some block ∧ block.freeSlot = some slot ∧
        insertNewWithin T (depth + 1) s key value =
          pure (s.place T (s.homeBlock T key) block slot key value)) ∨
      ∃ block, s.memory[s.homeBlock T key]? = some block ∧ block.freeSlot = none ∧
        insertNewWithin T (depth + 1) s key value =
          (resizeWithin T depth s >>= fun s => insertWithin T depth s key value) := by
  cases block_eq : s.memory[s.homeBlock T key]? with
  | none =>
      left
      rw [insertNewWithin]
      change (headerBlock T s (s.homeBlock T key) >>= _) = _
      rw [headerBlock_missing T block_eq]
      rfl
  | some block =>
      right
      cases free : block.freeSlot with
      | some slot =>
          exact Or.inl ⟨block, slot, rfl, free, insertNewWithin_of_free block_eq depth value free⟩
      | none => exact Or.inr ⟨block, rfl, free, insertNewWithin_of_full block_eq depth value free⟩

end Operations

/-! ## The invariant -/

/-- The header and the block a slot must have when it is occupied by `key`. -/
def SlotFits (T : Traits κ υ) (bitMask : BitVec 32) (nth : Nat) (slot : Fin 32)
    (header : BitVec 16) (key : κ) : Prop :=
  header = headerOf slot (home (T.hasher key) bitMask) (T.hasher key) ∧
    (nthHeaderBlock (home (T.hasher key) bitMask)).toNat = nth

/-- The representation invariant. -/
structure Invariant (T : Traits κ υ) (s : Hashmap κ υ) : Prop extends Addressable s where
  /-- Occupied slots carry the header of their key and lie in its home block. -/
  slots : ∀ nth block, s.memory[nth]? = some block → ∀ slot, block.header slot ≠ 0#16 →
    SlotFits T s.bitMask nth slot (block.header slot) (block.pair slot).key
  /-- No key is stored twice. -/
  keys_nodup : s.keys.Nodup
  /-- The count is the number of entries. -/
  count_eq : s.count.toNat = s.entries.length

namespace Invariant

variable {T : Traits κ υ} {s : Hashmap κ υ}

theorem entry_unique (invariant : Invariant T s) {first second : KeyValuePair κ υ}
    (first_mem : first ∈ s.entries) (second_mem : second ∈ s.entries)
    (same : first.key = second.key) : first = second :=
  List.inj_on_of_nodup_map invariant.keys_nodup first_mem second_mem same

/-- Replacing a block by one whose occupied slots fit, with distinct keys and a matching count. -/
theorem replaceBlock (invariant : Invariant T s) {nth : Nat} {new : Block κ υ} {count : BitVec 32}
    (fits : ∀ slot, new.header slot ≠ 0#16 →
      SlotFits T s.bitMask nth slot (new.header slot) (new.pair slot).key)
    (keys_nodup : (s.setBlock nth new).keys.Nodup)
    (count_eq : count.toNat = (s.setBlock nth new).entries.length) :
    Invariant T ((s.setBlock nth new).withCount count) where
  capacity_ge := invariant.capacity_ge
  bitMask_eq := invariant.bitMask_eq
  slots := by
    intro other block block_eq slot occupied
    by_cases same : nth = other
    · subst other
      obtain ⟨inside, item_eq⟩ := List.getElem?_eq_some_iff.mp block_eq
      obtain rfl : new = block := by
        simpa using item_eq
      exact fits slot occupied
    · rw [memory_withCount, memory_setBlock, List.getElem?_set_ne same] at block_eq
      exact invariant.slots other block block_eq slot occupied
  keys_nodup := keys_nodup
  count_eq := count_eq

/-! ## Lookup -/

section Lookup

variable [BEq κ] [LawfulBEq κ] {key : κ} {block : Block κ υ} {slot : Fin 32}

theorem lookup_eq_none_iff (invariant : Invariant T s)
    (block_eq : s.memory[s.homeBlock T key]? = some block) :
    block.lookup T s.bitMask key = none ↔ key ∉ s.keys := by
  rw [mem_keys]
  constructor
  · rintro missing ⟨value, member⟩
    obtain ⟨place, other, other_eq, occupied, pair_eq⟩ := mem_entries.mp member
    obtain ⟨header_eq, home_eq⟩ := invariant.slots _ _ other_eq _ occupied
    rw [pair_eq] at header_eq home_eq
    have same : place.block = s.homeBlock T key := home_eq.symm
    rw [same, block_eq, Option.some.injEq] at other_eq
    subst other
    have miss := Block.lookup_miss missing header_eq
    simp [pair_eq] at miss
  · intro absent
    cases found : block.lookup T s.bitMask key with
    | none => rfl
    | some slot =>
        refine (absent ⟨(block.pair slot).value, ?_⟩).elim
        have member : block.pair slot ∈ s.entries :=
          mem_entries.mpr ⟨⟨_, slot⟩, block, block_eq, Block.occupied_of_lookup found, rfl⟩
        rw [← Block.key_of_lookup found]
        exact member

theorem exists_lookup (invariant : Invariant T s)
    (block_eq : s.memory[s.homeBlock T key]? = some block) (stored : key ∈ s.keys) :
    ∃ slot, block.lookup T s.bitMask key = some slot ∧ block.header slot ≠ 0#16 ∧
      (block.pair slot).key = key ∧ block.pair slot ∈ s.entries := by
  cases found : block.lookup T s.bitMask key with
  | none => exact ((invariant.lookup_eq_none_iff block_eq).mp found stored).elim
  | some slot =>
      exact ⟨slot, rfl, Block.occupied_of_lookup found, Block.key_of_lookup found,
        mem_entries.mpr ⟨⟨_, slot⟩, block, block_eq, Block.occupied_of_lookup found, rfl⟩⟩

end Lookup

/-! ## Preservation -/

theorem setValue (invariant : Invariant T s) {nth : Nat} {block : Block κ υ}
    (block_eq : s.memory[nth]? = some block) {slot : Fin 32}
    (occupied : block.header slot ≠ 0#16) (value : υ) :
    Invariant T (s.setBlock nth (block.setValue slot value)) := by
  obtain ⟨rest, before, after⟩ := entries_setBlock_setValue block_eq occupied value
  have keys_perm : (s.setBlock nth (block.setValue slot value)).keys.Perm s.keys :=
    (after.map KeyValuePair.key).trans (before.map KeyValuePair.key).symm
  have restored : (s.setBlock nth (block.setValue slot value)).withCount s.count =
      s.setBlock nth (block.setValue slot value) := rfl
  rw [← restored]
  apply invariant.replaceBlock
  · intro other other_occupied
    have fits := invariant.slots nth block block_eq other other_occupied
    by_cases same : other = slot
    · subst other
      simpa [Block.setValue] using fits
    · simpa [Block.setValue, same] using fits
  · exact keys_perm.nodup_iff.mpr invariant.keys_nodup
  · rw [invariant.count_eq, before.length_eq, after.length_eq]
    rfl

theorem place (invariant : Invariant T s) {key : κ} {block : Block κ υ}
    (block_eq : s.memory[s.homeBlock T key]? = some block) {slot : Fin 32}
    (free : block.header slot = 0#16) (absent : key ∉ s.keys) (value : υ) :
    Invariant T (s.place T (s.homeBlock T key) block slot key value) ∧
      (s.place T (s.homeBlock T key) block slot key value).entries.Perm
        (⟨key, value⟩ :: s.entries) := by
  have header_ne := headerOf_ne_zero slot (home (T.hasher key) s.bitMask) (T.hasher key)
  have entries_perm : (s.place T (s.homeBlock T key) block slot key value).entries.Perm
      (⟨key, value⟩ :: s.entries) :=
    entries_setBlock_perm block_eq [KeyValuePair.mk key value]
      (Block.entries_fill_perm free header_ne key value)
  refine ⟨?_, entries_perm⟩
  apply invariant.replaceBlock
  · intro other occupied
    by_cases same : other = slot
    · subst other
      simp [Block.fill, SlotFits, homeBlock]
    · have unchanged : block.header other ≠ 0#16 := by
        simpa [Block.fill, same] using occupied
      simpa [Block.fill, same] using invariant.slots _ block block_eq other unchanged
  · refine (entries_perm.map KeyValuePair.key).nodup_iff.mpr ?_
    exact List.nodup_cons.mpr ⟨absent, invariant.keys_nodup⟩
  · have total := entries_length_le (s.place T (s.homeBlock T key) block slot key value)
    have length_eq := entries_perm.length_eq
    have capacity_lt := s.capacity.isLt
    have capacity_eq : (s.place T (s.homeBlock T key) block slot key value).capacity =
        s.capacity := rfl
    rw [length_eq, capacity_eq, List.length_cons] at total
    change (s.count + 1).toNat =
      (s.place T (s.homeBlock T key) block slot key value).entries.length
    rw [length_eq, BitVec.toNat_add, invariant.count_eq, List.length_cons,
      show (1 : BitVec 32).toNat = 1 by rfl]
    omega

theorem clearHeader (invariant : Invariant T s) {nth : Nat} {block : Block κ υ}
    (block_eq : s.memory[nth]? = some block) {slot : Fin 32}
    (occupied : block.header slot ≠ 0#16) :
    Invariant T ((s.setBlock nth (block.clearHeader slot)).withCount (s.count - 1)) ∧
      s.entries.Perm (block.pair slot :: (s.setBlock nth (block.clearHeader slot)).entries) := by
  have entries_perm : s.entries.Perm
      (block.pair slot :: (s.setBlock nth (block.clearHeader slot)).entries) :=
    entries_perm_setBlock block_eq [block.pair slot] (Block.entries_clearHeader_perm occupied)
  refine ⟨?_, entries_perm⟩
  apply invariant.replaceBlock
  · intro other other_occupied
    by_cases same : other = slot
    · subst other
      simp at other_occupied
    · have unchanged : block.header other ≠ 0#16 := by
        simpa [Block.clearHeader, same] using other_occupied
      simpa [Block.clearHeader, same] using invariant.slots _ block block_eq other unchanged
  · have keys_perm := (entries_perm.map KeyValuePair.key).nodup_iff.mp invariant.keys_nodup
    exact (List.nodup_cons.mp keys_perm).2
  · have length_eq := entries_perm.length_eq
    have count_eq := invariant.count_eq
    rw [length_eq, List.length_cons] at count_eq
    rw [BitVec.toNat_sub, count_eq, show (1 : BitVec 32).toNat = 1 by rfl]
    have count_lt := s.count.isLt
    omega

end Invariant

end RobinHoodHashmap
