import RobinHoodHashmap.Scan

/-!
# Stored entries

The entries of a table are the pairs of its occupied slots, block by block and slot by slot.
Writing or clearing one slot adds or removes exactly one entry, whatever the pairs in free slots
hold; these permutation lemmas are all the later invariants use of the block layout.
-/

namespace RobinHoodHashmap

open Selection

variable {κ υ : Type}

namespace Block

/-- Pairs of the occupied slots, in slot order. -/
def entries (block : Block κ υ) : List (KeyValuePair κ υ) :=
  block.pairsWhere fun slot => block.header slot != 0#16

theorem mem_entries {block : Block κ υ} {pair : KeyValuePair κ υ} :
    pair ∈ block.entries ↔ ∃ slot, block.header slot ≠ 0#16 ∧ block.pair slot = pair := by
  simp [entries, pairsWhere]

theorem entries_length_le (block : Block κ υ) : block.entries.length ≤ 32 := by
  have selected := List.length_filter_le (fun slot => block.header slot != 0#16) (List.finRange 32)
  simpa [entries, pairsWhere] using selected

@[simp] theorem entries_zero (T : Traits κ υ) : (Block.zero T).entries = [] := by
  simp [entries, pairsWhere, zero]

/-- A block has a free slot exactly when fewer than thirty-two are occupied. -/
theorem freeSlot_eq_none_iff (block : Block κ υ) :
    block.freeSlot = none ↔ block.entries.length = 32 := by
  have full_iff := List.length_filter_eq_length_iff
    (p := fun slot => block.header slot != 0#16) (l := List.finRange 32)
  rw [List.length_finRange] at full_iff
  rw [freeSlot, Fin.find?_eq_none_iff, entries, pairsWhere, List.length_map, full_iff]
  simp

theorem header_of_freeSlot {block : Block κ υ} {slot : Fin 32}
    (free : block.freeSlot = some slot) : block.header slot = 0#16 := by
  simpa using (Fin.find?_eq_some_iff.mp free).1

/-- Filling a free slot adds one entry. -/
theorem entries_fill_perm {block : Block κ υ} {slot : Fin 32} (free : block.header slot = 0#16)
    {header : BitVec 16} (occupied : header ≠ 0#16) (key : κ) (value : υ) :
    (block.fill slot header key value).entries.Perm (.mk key value :: block.entries) := by
  rw [entries, entries, pairsWhere, pairsWhere, map_filter_eq_flatMap, map_filter_eq_flatMap]
  refine flatMap_update_perm (List.nodup_finRange 32) (List.mem_finRange slot)
    [KeyValuePair.mk key value] ?_ ?_
  · intro other _ distinct
    simp [fill, distinct]
  · simp [fill, free, occupied]

@[simp] theorem header_clearHeader_self (block : Block κ υ) (slot : Fin 32) :
    (block.clearHeader slot).header slot = 0#16 := by
  simp [clearHeader]

/-- Assigning a value is clearing the slot and filling it again under the same key. -/
theorem setValue_eq_fill (block : Block κ υ) (slot : Fin 32) (value : υ) :
    block.setValue slot value =
      (block.clearHeader slot).fill slot (block.header slot) (block.pair slot).key value := by
  simp [setValue, clearHeader, fill]

theorem entries_setValue_perm {block : Block κ υ} {slot : Fin 32}
    (occupied : block.header slot ≠ 0#16) (value : υ) :
    (block.setValue slot value).entries.Perm
      (⟨(block.pair slot).key, value⟩ :: (block.clearHeader slot).entries) := by
  rw [setValue_eq_fill]
  exact entries_fill_perm (header_clearHeader_self block slot) occupied _ _

/-- Clearing an occupied slot removes one entry. -/
theorem entries_clearHeader_perm {block : Block κ υ} {slot : Fin 32}
    (occupied : block.header slot ≠ 0#16) :
    block.entries.Perm (block.pair slot :: (block.clearHeader slot).entries) := by
  have same : block.setValue slot (block.pair slot).value = block := by
    simp [setValue]
  have assigned := entries_setValue_perm occupied (block.pair slot).value
  rwa [same] at assigned

end Block

namespace Hashmap

/-- All stored entries. -/
def entries (s : Hashmap κ υ) : List (KeyValuePair κ υ) := s.memory.flatMap Block.entries

/-- All stored keys. -/
def keys (s : Hashmap κ υ) : List κ := s.entries.map KeyValuePair.key

/-- A place holds a pair when its slot is occupied by it. -/
def Holds (s : Hashmap κ υ) (place : Place) (pair : KeyValuePair κ υ) : Prop :=
  ∃ block, s.memory[place.block]? = some block ∧
    block.header place.slot ≠ 0#16 ∧ block.pair place.slot = pair

theorem mem_entries {s : Hashmap κ υ} {pair : KeyValuePair κ υ} :
    pair ∈ s.entries ↔ ∃ place, s.Holds place pair := by
  simp only [entries, List.mem_flatMap, Block.mem_entries, Holds]
  constructor
  · rintro ⟨block, member, slot, occupied, pair_eq⟩
    obtain ⟨nth, block_eq⟩ := List.mem_iff_getElem?.mp member
    exact ⟨⟨nth, slot⟩, block, block_eq, occupied, pair_eq⟩
  · rintro ⟨⟨nth, slot⟩, block, block_eq, occupied, pair_eq⟩
    exact ⟨block, List.mem_of_getElem? block_eq, slot, occupied, pair_eq⟩

theorem mem_keys {s : Hashmap κ υ} {key : κ} : key ∈ s.keys ↔ ∃ value, ⟨key, value⟩ ∈ s.entries := by
  simp only [keys, List.mem_map]
  constructor
  · rintro ⟨pair, member, rfl⟩
    exact ⟨pair.value, member⟩
  · rintro ⟨value, member⟩
    exact ⟨_, member, rfl⟩

theorem entries_length_le (s : Hashmap κ υ) : s.entries.length ≤ s.capacity.toNat := by
  have blocks : ∀ memory : List (Block κ υ),
      (memory.flatMap Block.entries).length ≤ 32 * memory.length := by
    intro memory
    induction memory with
    | nil => simp
    | cons block memory induction =>
        have := block.entries_length_le
        simp only [List.flatMap_cons, List.length_append, List.length_cons]
        omega
  have total := blocks s.memory
  rw [s.allocated] at total
  rw [entries]
  omega

@[simp] theorem memory_setBlock (s : Hashmap κ υ) (nth : Nat) (block : Block κ υ) :
    (s.setBlock nth block).memory = s.memory.set nth block := rfl

@[simp] theorem count_setBlock (s : Hashmap κ υ) (nth : Nat) (block : Block κ υ) :
    (s.setBlock nth block).count = s.count := rfl

@[simp] theorem capacity_setBlock (s : Hashmap κ υ) (nth : Nat) (block : Block κ υ) :
    (s.setBlock nth block).capacity = s.capacity := rfl

@[simp] theorem bitMask_setBlock (s : Hashmap κ υ) (nth : Nat) (block : Block κ υ) :
    (s.setBlock nth block).bitMask = s.bitMask := rfl

@[simp] theorem maxOffset_setBlock (s : Hashmap κ υ) (nth : Nat) (block : Block κ υ) :
    (s.setBlock nth block).maxOffset = s.maxOffset := rfl

@[simp] theorem memory_withCount (s : Hashmap κ υ) (count : BitVec 32) :
    (s.withCount count).memory = s.memory := rfl

@[simp] theorem count_withCount (s : Hashmap κ υ) (count : BitVec 32) :
    (s.withCount count).count = count := rfl

@[simp] theorem capacity_withCount (s : Hashmap κ υ) (count : BitVec 32) :
    (s.withCount count).capacity = s.capacity := rfl

@[simp] theorem bitMask_withCount (s : Hashmap κ υ) (count : BitVec 32) :
    (s.withCount count).bitMask = s.bitMask := rfl

@[simp] theorem maxOffset_withCount (s : Hashmap κ υ) (count : BitVec 32) :
    (s.withCount count).maxOffset = s.maxOffset := rfl

@[simp] theorem entries_withCount (s : Hashmap κ υ) (count : BitVec 32) :
    (s.withCount count).entries = s.entries := rfl

@[simp] theorem keys_withCount (s : Hashmap κ υ) (count : BitVec 32) :
    (s.withCount count).keys = s.keys := rfl

theorem getElem?_setBlock_self {s : Hashmap κ υ} {nth : Nat} {block : Block κ υ}
    (addressed : s.memory[nth]? = some block) (new : Block κ υ) :
    (s.setBlock nth new).memory[nth]? = some new := by
  obtain ⟨inside, -⟩ := List.getElem?_eq_some_iff.mp addressed
  rw [memory_setBlock, List.getElem?_set_self inside]

theorem setBlock_self {s : Hashmap κ υ} {nth : Nat} {block : Block κ υ}
    (block_eq : s.memory[nth]? = some block) : s.setBlock nth block = s := by
  obtain ⟨inside, rfl⟩ := List.getElem?_eq_some_iff.mp block_eq
  exact Hashmap.ext rfl rfl rfl rfl (List.set_getElem_self inside)

theorem setBlock_setBlock (s : Hashmap κ υ) (nth : Nat) (first second : Block κ υ) :
    (s.setBlock nth first).setBlock nth second = s.setBlock nth second := by
  simp only [Hashmap.setBlock, List.set_set]

/-- Entries gained by replacing one block. -/
theorem entries_setBlock_perm {s : Hashmap κ υ} {nth : Nat} {old new : Block κ υ}
    (block_eq : s.memory[nth]? = some old) (extra : List (KeyValuePair κ υ))
    (changed : new.entries.Perm (extra ++ old.entries)) :
    (s.setBlock nth new).entries.Perm (extra ++ s.entries) :=
  flatMap_set_perm block_eq extra changed

/-- Entries lost by replacing one block. -/
theorem entries_perm_setBlock {s : Hashmap κ υ} {nth : Nat} {old new : Block κ υ}
    (block_eq : s.memory[nth]? = some old) (extra : List (KeyValuePair κ υ))
    (changed : old.entries.Perm (extra ++ new.entries)) :
    s.entries.Perm (extra ++ (s.setBlock nth new).entries) := by
  obtain ⟨inside, item_eq⟩ := List.getElem?_eq_some_iff.mp block_eq
  have restored : (s.memory.set nth new).set nth old = s.memory := by
    rw [List.set_set, ← item_eq, List.set_getElem_self]
  have new_eq : (s.memory.set nth new)[nth]? = some new := by
    simp [inside]
  have back := flatMap_set_perm (f := Block.entries) new_eq extra changed
  rwa [restored] at back

/-- Assigning a value in place replaces one entry. -/
theorem entries_setBlock_setValue {s : Hashmap κ υ} {nth : Nat} {block : Block κ υ}
    (block_eq : s.memory[nth]? = some block) {slot : Fin 32}
    (occupied : block.header slot ≠ 0#16) (value : υ) :
    ∃ rest, s.entries.Perm (block.pair slot :: rest) ∧
      (s.setBlock nth (block.setValue slot value)).entries.Perm
        (⟨(block.pair slot).key, value⟩ :: rest) := by
  have cleared_eq : (s.setBlock nth (block.clearHeader slot)).memory[nth]? =
      some (block.clearHeader slot) := by
    obtain ⟨inside, _⟩ := List.getElem?_eq_some_iff.mp block_eq
    simp [inside]
  have twice : (s.setBlock nth (block.clearHeader slot)).setBlock nth
      (block.setValue slot value) = s.setBlock nth (block.setValue slot value) := by
    simp [setBlock]
  refine ⟨(s.setBlock nth (block.clearHeader slot)).entries, ?_, ?_⟩
  · exact entries_perm_setBlock block_eq [block.pair slot]
      (Block.entries_clearHeader_perm occupied)
  · rw [← twice]
    exact entries_setBlock_perm cleared_eq [KeyValuePair.mk (block.pair slot).key value]
      (Block.entries_setValue_perm occupied value)

end Hashmap

end RobinHoodHashmap
