import RobinHoodHashmap.Growth

/-!
# Member functions under the invariant

One specification for each public operation: what it returns and how it changes the entries.
Every operation preserves the invariant, and an assignment replaces at most the entry of its own
key.
-/

namespace RobinHoodHashmap

open Hashmap

variable {κ υ : Type}

/-- The pairs stored under other keys. -/
def withoutKey [BEq κ] (key : κ) (pairs : List (KeyValuePair κ υ)) : List (KeyValuePair κ υ) :=
  pairs.filter fun pair => !(pair.key == key)

/-- The entries after `key` has been assigned `value`. -/
def Assigned [BEq κ] (s s' : Hashmap κ υ) (key : κ) (value : υ) : Prop :=
  s'.entries.Perm (⟨key, value⟩ :: withoutKey key s.entries)

section WithoutKey

variable [BEq κ] [LawfulBEq κ] {key : κ}

theorem withoutKey_eq_self {pairs : List (KeyValuePair κ υ)}
    (absent : key ∉ pairs.map KeyValuePair.key) : withoutKey key pairs = pairs := by
  rw [withoutKey, List.filter_eq_self]
  intro pair member
  have distinct : pair.key ≠ key := by
    rintro rfl
    exact absent (List.mem_map_of_mem member)
  simpa using distinct

theorem withoutKey_perm {pairs rest : List (KeyValuePair κ υ)} {pair : KeyValuePair κ υ}
    (nodup : (pairs.map KeyValuePair.key).Nodup) (split : pairs.Perm (pair :: rest))
    (key_eq : pair.key = key) : (withoutKey key pairs).Perm rest := by
  have keys_perm := (split.map KeyValuePair.key).nodup_iff.mp nodup
  have absent : key ∉ rest.map KeyValuePair.key := by
    rw [← key_eq]
    exact (List.nodup_cons.mp keys_perm).1
  have filtered : (withoutKey key pairs).Perm (withoutKey key (pair :: rest)) :=
    split.filter _
  have head_gone : withoutKey key (pair :: rest) = withoutKey key rest := by
    simp [withoutKey, key_eq]
  rwa [head_gone, withoutKey_eq_self absent] at filtered

theorem mem_withoutKey {pairs : List (KeyValuePair κ υ)} {pair : KeyValuePair κ υ} :
    pair ∈ withoutKey key pairs ↔ pair ∈ pairs ∧ pair.key ≠ key := by
  simp [withoutKey]

end WithoutKey

/-! ## Whole-table operations -/

section Whole

variable {T : Traits κ υ}

theorem overwrite_all (T : Traits κ υ) {capacity : Nat} {memory : List (Block κ υ)}
    (allocated : memory.length = capacity / 32) (source : Nat → Block κ υ) :
    overwrite T (capacity * uintSize T.pairSize) source memory =
      (List.range memory.length).map source := by
  apply List.ext_getElem
  · simp [overwrite]
  · intro nth inside _
    have fits : (nth + 1) * memBlockSize T.pairSize ≤ capacity * uintSize T.pairSize := by
      rw [block_fits_iff]
      simp only [overwrite, List.length_mapIdx] at inside
      omega
    simp [overwrite, fits]

theorem copyConstruct_eq (T : Traits κ υ) (other : Hashmap κ υ) : copyConstruct T other = other := by
  have memory_eq : (copyConstruct T other).memory = other.memory := by
    refine (overwrite_all T (length_calloc T other.capacity) _).trans ?_
    apply List.ext_getElem
    · simp [length_calloc, other.allocated]
    · intro nth _ inside
      simp [inside]
  exact Hashmap.ext rfl rfl rfl rfl memory_eq

theorem memory_clear (T : Traits κ υ) (s : Hashmap κ υ) :
    (clear T s).memory = List.replicate s.memory.length (Block.zero T) := by
  refine (overwrite_all T s.allocated _).trans ?_
  simp

theorem entries_eq_nil {s : Hashmap κ υ} {n : Nat}
    (zeroed : s.memory = List.replicate n (Block.zero T)) : s.entries = [] := by
  rw [Hashmap.entries, zeroed, List.flatMap_eq_nil_iff]
  intro block member
  rw [List.eq_of_mem_replicate member, Block.entries_zero]

theorem invariant_of_zeroed {s : Hashmap κ υ} (addressable : Addressable s) {n : Nat}
    (zeroed : s.memory = List.replicate n (Block.zero T)) (count_eq : s.count = 0#32) :
    Invariant T s where
  toAddressable := addressable
  slots := by
    intro nth block block_eq slot occupied
    rw [zeroed] at block_eq
    rw [List.eq_of_mem_replicate (List.mem_of_getElem? block_eq)] at occupied
    exact (occupied rfl).elim
  keys_nodup := by
    rw [Hashmap.keys, entries_eq_nil zeroed]
    exact List.nodup_nil
  count_eq := by
    rw [entries_eq_nil zeroed, count_eq]
    rfl

theorem clear_spec {s : Hashmap κ υ} (invariant : Invariant T s) :
    Invariant T (clear T s) ∧ (clear T s).entries = [] :=
  ⟨invariant_of_zeroed ⟨invariant.capacity_ge, invariant.bitMask_eq⟩ (memory_clear T s) rfl,
    entries_eq_nil (memory_clear T s)⟩

/-- The table the constructor builds for a nonzero capacity. -/
def freshTable (T : Traits κ υ) (capacity : BitVec 32) : Hashmap κ υ where
  count := 0#32
  capacity
  maxOffset := log2 capacity
  bitMask := constructorMask (log2 capacity)
  memory := calloc T capacity
  allocated := length_calloc T capacity

theorem construct_eq (T : Traits κ υ) {capacity : BitVec 32} (nonzero : capacity ≠ 0#32) :
    construct T capacity = pure (freshTable T capacity) := by
  have small := log2_lt nonzero
  exact if_pos (show (log2 capacity).toNat < 64 by omega)

theorem ne_zero_of_block {capacity : BitVec 32} (capacity_ge : 32 ≤ capacity.toNat) :
    capacity ≠ 0#32 := by
  rintro rfl
  simp at capacity_ge

theorem freshTable_spec (T : Traits κ υ) {capacity : BitVec 32}
    (capacity_ge : 32 ≤ capacity.toNat) :
    Invariant T (freshTable T capacity) ∧ (freshTable T capacity).entries = [] := by
  have nonzero := ne_zero_of_block capacity_ge
  refine ⟨invariant_of_zeroed ⟨capacity_ge, ?_⟩ rfl rfl, entries_eq_nil (T := T) rfl⟩
  rw [freshTable, constructorMask_toNat (log2_lt nonzero), log2_toNat nonzero]
  rfl

end Whole

/-! ## Operations on one key -/

section Key

variable [BEq κ] [LawfulBEq κ] {T : Traits κ υ} {s : Hashmap κ υ}

theorem find_spec (invariant : Invariant T s) (key : κ) :
    (∃ place value, find T s key = pure (some place) ∧ s.Holds place ⟨key, value⟩) ∨
      find T s key = pure none ∧ key ∉ s.keys := by
  obtain ⟨block, block_eq⟩ := invariant.exists_home T key
  rw [find_eq block_eq]
  by_cases stored : key ∈ s.keys
  · obtain ⟨slot, found, occupied, rfl, -⟩ := invariant.exists_lookup block_eq stored
    rw [found]
    exact Or.inl ⟨_, _, rfl, block, block_eq, occupied, rfl⟩
  · rw [(invariant.lookup_eq_none_iff block_eq).mpr stored]
    exact Or.inr ⟨rfl, stored⟩

omit [BEq κ] [LawfulBEq κ] in
theorem mem_entries_of_holds {place : Place} {pair : KeyValuePair κ υ}
    (holds : s.Holds place pair) : pair ∈ s.entries :=
  mem_entries.mpr ⟨place, holds⟩

theorem erase_spec (invariant : Invariant T s) (key : κ) :
    (∃ value s', erase T s key = pure (value, s') ∧ ⟨key, value⟩ ∈ s.entries ∧
        Invariant T s' ∧ s'.entries.Perm (withoutKey key s.entries) ∧ s'.capacity = s.capacity) ∨
      erase T s key = pure (T.minusOne, s) ∧ key ∉ s.keys := by
  obtain ⟨block, block_eq⟩ := invariant.exists_home T key
  by_cases stored : key ∈ s.keys
  · obtain ⟨slot, found, occupied, rfl, member⟩ := invariant.exists_lookup block_eq stored
    obtain ⟨preserved, entries_perm⟩ := invariant.clearHeader block_eq occupied
    exact Or.inl ⟨_, _, erase_of_found block_eq found, member, preserved,
      (withoutKey_perm invariant.keys_nodup entries_perm rfl).symm, rfl⟩
  · exact Or.inr
      ⟨erase_of_missing block_eq ((invariant.lookup_eq_none_iff block_eq).mpr stored), stored⟩

omit [BEq κ] [LawfulBEq κ] in
theorem readValue_eq {place : Place} {pair : KeyValuePair κ υ} (holds : s.Holds place pair) :
    readValue T s place = pure pair.value := by
  obtain ⟨block, block_eq, -, rfl⟩ := holds
  exact readValue_of_block block_eq

theorem writeValue_spec (invariant : Invariant T s) {place : Place} {key : κ} {old : υ}
    (holds : s.Holds place ⟨key, old⟩) (value : υ) :
    ∃ s', writeValue T s place value = pure s' ∧ Invariant T s' ∧ Assigned s s' key value ∧
      s'.capacity = s.capacity := by
  obtain ⟨block, block_eq, occupied, pair_eq⟩ := holds
  obtain ⟨rest, before, after⟩ := entries_setBlock_setValue block_eq occupied value
  have key_eq : (block.pair place.slot).key = key := by
    rw [pair_eq]
  have others := withoutKey_perm invariant.keys_nodup before key_eq
  rw [key_eq] at after
  exact ⟨_, writeValue_of_block block_eq value, invariant.setValue block_eq occupied value,
    after.trans (others.symm.cons _), rfl⟩

/-- Inserting a stored key writes its value cell and nothing else. -/
theorem insert_stored (invariant : Invariant T s) {key : κ} (stored : key ∈ s.keys) (value : υ) :
    ∃ place old, s.Holds place ⟨key, old⟩ ∧
      insert T s key value = writeValue T s place value := by
  obtain ⟨block, block_eq⟩ := invariant.exists_home T key
  obtain ⟨slot, found, occupied, rfl, -⟩ := invariant.exists_lookup block_eq stored
  let place : Place := ⟨s.homeBlock T (block.pair slot).key, slot⟩
  refine ⟨place, (block.pair slot).value, ⟨block, block_eq, occupied, rfl⟩, ?_⟩
  have home_eq : s.memory[place.block]? = some block := block_eq
  rw [writeValue_of_block home_eq, insert, callDepth, insertWithin_of_found block_eq 63 value found]

/-- An insertion that does not overflow returns and assigns its key. -/
theorem insert_spec (invariant : Invariant T s) {key : κ} {value : υ}
    (no_wrap : NoWrap (insert T s key value)) :
    ∃ s', (insert T s key value).result = .ok s' ∧ Invariant T s' ∧ Assigned s s' key value := by
  by_cases stored : key ∈ s.keys
  · obtain ⟨place, old, holds, insert_eq⟩ := insert_stored invariant stored value
    obtain ⟨s', write_eq, preserved, assigned, -⟩ := writeValue_spec invariant holds value
    exact ⟨s', by rw [insert_eq, write_eq]; rfl, preserved, assigned⟩
  · obtain ⟨n, least, bounded⟩ := exists_least_of_noWrap invariant stored (Or.inl no_wrap)
    obtain ⟨s', insert_eq, preserved, placed, -⟩ :=
      insert_absent_spec invariant stored least bounded value
    refine ⟨s', by rw [insert_eq], preserved, ?_⟩
    rwa [Assigned, withoutKey_eq_self stored]

omit [BEq κ] [LawfulBEq κ] in
theorem Hashmap.Holds.value_eq (invariant : Invariant T s) {place : Place} {key : κ}
    {first second : υ} (holds : s.Holds place ⟨key, first⟩)
    (member : ⟨key, second⟩ ∈ s.entries) : first = second := by
  have same := invariant.entry_unique (mem_entries_of_holds holds) member rfl
  exact congrArg KeyValuePair.value same

/-- `operator[]` yields the place of its key, which it first inserts when absent; its second
lookup never fails. -/
theorem index_spec (invariant : Invariant T s) {key : κ} (no_wrap : NoWrap (index T s key)) :
    ∃ place value s', (index T s key).result = .ok (place, s') ∧ Invariant T s' ∧
      s'.Holds place ⟨key, value⟩ ∧
      (s' = s ∧ key ∈ s.keys ∨ key ∉ s.keys ∧ value = T.defaultValue ∧
        NoWrap (insert T s key T.defaultValue) ∧ (insert T s key T.defaultValue).result = .ok s' ∧
        Assigned s s' key T.defaultValue) := by
  rcases find_spec invariant key with ⟨place, value, found, holds⟩ | ⟨missing, absent⟩
  · refine ⟨place, value, s, ?_, invariant, holds, Or.inl ⟨rfl, ?_⟩⟩
    · rw [index_of_found found, Execution.result_pure]
    · exact mem_keys.mpr ⟨value, mem_entries_of_holds holds⟩
  · rw [index_of_missing missing] at no_wrap ⊢
    obtain ⟨s', returned, preserved, assigned⟩ := insert_spec invariant no_wrap.first
    have member : ⟨key, T.defaultValue⟩ ∈ s'.entries :=
      assigned.mem_iff.mpr List.mem_cons_self
    rcases find_spec preserved key with ⟨place, value, found, holds⟩ | ⟨-, still_absent⟩
    · refine ⟨place, value, s', ?_, preserved, holds,
        Or.inr ⟨absent, holds.value_eq preserved member, no_wrap.first, returned, assigned⟩⟩
      rw [Execution.result_bind_of_ok returned, findAgain_of_found found, Execution.result_pure]
    · exact (still_absent (mem_keys.mpr ⟨_, member⟩)).elim

end Key

end RobinHoodHashmap
