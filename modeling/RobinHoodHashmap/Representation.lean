import RobinHoodHashmap.FiniteMap

/-!
# The representation of reachable maps

The invariant read as a statement about headers, blocks, places and counters of a table.
-/

namespace RobinHoodHashmap

open Hashmap

variable {κ υ : Type}

/-- Occupied slots of a block. -/
def Block.occupied (block : Block κ υ) : Nat :=
  (List.finRange 32).countP fun slot => block.header slot != 0#16

/-- What a table looks like. -/
structure Representation (T : Traits κ υ) (s : Hashmap κ υ) : Prop where
  /-- A header is zero or determined by its slot and its key. -/
  headers : ∀ (nth : Nat) (block : Block κ υ), s.memory[nth]? = some block → ∀ slot,
    block.header slot = 0#16 ∨
      block.header slot = headerOf slot (home (T.hasher (block.pair slot).key) s.bitMask)
        (T.hasher (block.pair slot).key)
  /-- An occupied slot lies in the home block of its key. -/
  blocks : ∀ place pair, s.Holds place pair →
    place.block = (nthHeaderBlock (home (T.hasher pair.key) s.bitMask)).toNat
  /-- No key occupies two slots of the table. -/
  places : ∀ first second key value value', s.Holds first ⟨key, value⟩ →
    s.Holds second ⟨key, value'⟩ → first = second
  /-- The count is the number of nonzero headers. -/
  count_eq : s.count.toNat = (s.memory.map Block.occupied).sum
  /-- A map that holds something can count down. -/
  count_pos : ∀ place pair, s.Holds place pair → 0 < s.count.toNat
  /-- The mask is one below the greatest power of two in the capacity. -/
  mask : ∃ m, s.bitMask.toNat + 1 = 2 ^ m ∧ 2 ^ m ≤ s.capacity.toNat ∧ s.capacity.toNat < 2 ^ (m + 1)
  /-- Blocks the mask does not reach are empty. -/
  beyond : ∀ (nth : Nat) (block : Block κ υ), s.memory[nth]? = some block → (s.bitMask >>> 5).toNat < nth →
    ∀ slot, block.header slot = 0#16

variable {T : Traits κ υ} {s : Hashmap κ υ}

theorem Block.length_entries (block : Block κ υ) : block.entries.length = block.occupied := by
  rw [entries, pairsWhere, List.length_map, occupied, List.countP_eq_length_filter]

theorem length_entries (s : Hashmap κ υ) : s.entries.length = (s.memory.map Block.occupied).sum := by
  simp only [entries, List.length_flatMap, Block.length_entries]

/-- Slots of one block that hold the same key are equal. -/
theorem Invariant.slot_unique (invariant : Invariant T s) {nth : Nat} {block : Block κ υ}
    (block_eq : s.memory[nth]? = some block) {first second : Fin 32}
    (first_occupied : block.header first ≠ 0#16) (second_occupied : block.header second ≠ 0#16)
    (same : (block.pair first).key = (block.pair second).key) : first = second := by
  have sublist : (block.entries.map KeyValuePair.key).Sublist s.keys := by
    apply List.Sublist.map
    rw [entries, List.flatMap]
    exact List.sublist_flatten_of_mem (List.mem_map_of_mem (List.mem_of_getElem? block_eq))
  have nodup := invariant.keys_nodup.sublist sublist
  rw [Block.entries, Block.pairsWhere, List.map_map] at nodup
  exact List.inj_on_of_nodup_map nodup (by simpa using first_occupied)
    (by simpa using second_occupied) same

/-- The block of an occupied slot is the home block of its key. -/
theorem Invariant.block_of_holds (invariant : Invariant T s) {place : Place}
    {pair : KeyValuePair κ υ} (holds : s.Holds place pair) :
    place.block = s.homeBlock T pair.key := by
  obtain ⟨block, block_eq, occupied, rfl⟩ := holds
  exact (invariant.slots _ block block_eq _ occupied).2.symm

theorem Invariant.place_unique (invariant : Invariant T s) {first second : Place} {key : κ}
    {value value' : υ} (first_holds : s.Holds first ⟨key, value⟩)
    (second_holds : s.Holds second ⟨key, value'⟩) : first = second := by
  have same_block : first.block = second.block := by
    rw [invariant.block_of_holds first_holds, invariant.block_of_holds second_holds]
  obtain ⟨block, block_eq, first_occupied, first_eq⟩ := first_holds
  obtain ⟨other, other_eq, second_occupied, second_eq⟩ := second_holds
  rw [← same_block, block_eq, Option.some.injEq] at other_eq
  subst other
  have same_slot := invariant.slot_unique block_eq first_occupied second_occupied (by
    rw [first_eq, second_eq])
  cases first
  cases second
  simp only at same_block same_slot
  rw [same_block, same_slot]

theorem Invariant.representation (invariant : Invariant T s) : Representation T s where
  headers := by
    intro nth block block_eq slot
    by_cases occupied : block.header slot = 0#16
    · exact Or.inl occupied
    · exact Or.inr (invariant.slots nth block block_eq slot occupied).1
  blocks _ _ holds := invariant.block_of_holds holds
  places _ _ _ _ _ first_holds second_holds := invariant.place_unique first_holds second_holds
  count_eq := by
    rw [invariant.count_eq, length_entries]
  count_pos := by
    intro place pair holds
    rw [invariant.count_eq]
    exact List.length_pos_of_mem (mem_entries_of_holds holds)
  mask := by
    have power_pos := Nat.two_pow_pos s.exponent
    refine ⟨s.exponent, ?_, Nat.pow_log_le_self 2 invariant.capacity_ne_zero,
      Nat.lt_pow_succ_log_self (by decide) _⟩
    rw [invariant.bitMask_eq]
    omega
  beyond := by
    intro nth block block_eq past slot
    by_contra occupied
    obtain ⟨-, home_eq⟩ := invariant.slots nth block block_eq slot occupied
    rw [nthHeaderBlock_toNat invariant.bitMask_eq, blockUnder_eq] at home_eq
    have mask_nat : (s.bitMask >>> 5).toNat = (2 ^ s.exponent - 1) / 32 := by
      rw [BitVec.toNat_ushiftRight, invariant.bitMask_eq, Nat.shiftRight_eq_div_pow]
    have remainder_lt := Nat.mod_lt (T.hasher (block.pair slot).key).toNat
      (Nat.two_pow_pos s.exponent)
    have reached := Nat.div_le_div_right (c := 32) (Nat.le_sub_one_of_lt remainder_lt)
    omega

/-- Every reachable map of at least one block is represented this way. -/
theorem reachable_representation [BEq κ] [LawfulBEq κ] {capacity : BitVec 32}
    (capacity_ge : 32 ≤ capacity.toNat) (reachable : Reachable T capacity s) :
    Representation T s :=
  (reachable.invariant capacity_ge).representation

theorem reachable_representation_exercise :
    ∃ s, Reachable tempHash 48#32 s ∧ s.count = 33#32 ∧ Representation tempHash s := by
  obtain ⟨s, reachable, -, count_eq, -⟩ := exercise_reached
  exact ⟨s, reachable, count_eq, reachable_representation (by decide) reachable⟩

end RobinHoodHashmap
