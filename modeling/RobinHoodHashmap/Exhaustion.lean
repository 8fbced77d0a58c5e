import RobinHoodHashmap.Expansion

/-!
# When growth ends

Doubling separates keys only as far as their hashes differ in the bits of a 32-bit capacity.
Thirty-three keys that agree on all of them drive the capacity to zero.
-/

namespace RobinHoodHashmap

open Hashmap

variable {κ υ : Type}

/-- Both ways of inserting a key return with the key stored and never overflow the capacity. -/
structure GrowthEnds [BEq κ] (T : Traits κ υ) (s : Hashmap κ υ) (key : κ) (value : υ) : Prop where
  /-- `insert` does not overflow. -/
  insert_noWrap : NoWrap (insert T s key value)
  /-- `insert` returns with the key stored. -/
  insert_stores : ∃ s', (insert T s key value).result = .ok s' ∧ key ∈ s'.keys
  /-- `operator[]` does not overflow. -/
  index_noWrap : NoWrap (index T s key)
  /-- `operator[]` returns with the key stored. -/
  index_stores : ∃ place s', (index T s key).result = .ok (place, s') ∧ key ∈ s'.keys

/-- A key is stored, or at some representable capacity fewer than thirty-two stored keys share its
block. -/
def Accommodates (T : Traits κ υ) (s : Hashmap κ υ) (key : κ) : Prop :=
  key ∈ s.keys ∨ ∃ more, s.capacity.toNat * 2 ^ more < 2 ^ 32 ∧ s.crowding T key more < 32

section Ends

variable [BEq κ] [LawfulBEq κ] {T : Traits κ υ} {s : Hashmap κ υ} {key : κ}

theorem noWrap_insert_of_accommodates (invariant : Invariant T s)
    (accommodates : Accommodates T s key) (value : υ) : NoWrap (insert T s key value) := by
  by_cases stored : key ∈ s.keys
  · obtain ⟨place, old, holds, insert_eq⟩ := insert_stored invariant stored value
    obtain ⟨s', written, -⟩ := writeValue_spec invariant holds value
    rw [insert_eq, written]
    exact Execution.always_pure _ _
  · obtain ⟨more, bounded, room⟩ := accommodates.resolve_left stored
    obtain ⟨n, least, bound⟩ := exists_least_of_room bounded room
    exact noWrap_insert invariant stored least bound value

theorem noWrap_index (invariant : Invariant T s)
    (no_wrap : NoWrap (insert T s key T.defaultValue)) : NoWrap (index T s key) := by
  rcases find_spec invariant key with ⟨place, value, found, -⟩ | ⟨missing, -⟩
  · rw [index_of_found found]
    exact Execution.always_pure _ _
  · rw [index_of_missing missing]
    refine Execution.Always.bind no_wrap fun s' returned => ?_
    obtain ⟨after, result_eq, preserved, -⟩ := insert_spec invariant no_wrap
    obtain rfl : after = s' := by
      simpa [result_eq] using returned
    rcases find_spec preserved key with ⟨place, value, found, -⟩ | ⟨gone, -⟩
    · rw [findAgain_of_found found]
      exact Execution.always_pure _ _
    · rw [findAgain_of_missing gone]
      exact fun _ impossible => nomatch impossible

theorem GrowthEnds.of_accommodates (invariant : Invariant T s)
    (accommodates : Accommodates T s key) (value : υ) : GrowthEnds T s key value := by
  have no_wrap := noWrap_insert_of_accommodates invariant accommodates value
  have index_no_wrap : NoWrap (index T s key) :=
    noWrap_index invariant (noWrap_insert_of_accommodates invariant accommodates _)
  obtain ⟨s', returned, -, assigned⟩ := insert_spec invariant no_wrap
  obtain ⟨place, bound, after, indexed, -, holds, -⟩ := index_spec invariant index_no_wrap
  exact {
    insert_noWrap := no_wrap
    insert_stores :=
      ⟨s', returned, mem_keys.mpr ⟨value, assigned.mem_iff.mpr List.mem_cons_self⟩⟩
    index_noWrap := index_no_wrap
    index_stores := ⟨place, after, indexed, mem_keys.mpr ⟨bound, mem_entries_of_holds holds⟩⟩ }

theorem Accommodates.of_noWrap (invariant : Invariant T s) {value : υ}
    (no_wrap : NoWrap (insert T s key value)) : Accommodates T s key := by
  by_cases stored : key ∈ s.keys
  · exact Or.inl stored
  · obtain ⟨n, least, bounded⟩ := exists_least_of_noWrap invariant stored (Or.inl no_wrap)
    exact Or.inr ⟨n, bounded, least.1⟩

/-- Growth ends on a reachable map of default capacity exactly when the key is stored already or
some representable capacity has room for it. -/
theorem growthEnds_iff (reachable : Reachable T 32#32 s) (key : κ) (value : υ) :
    GrowthEnds T s key value ↔ Accommodates T s key := by
  have invariant := reachable.invariant (by decide)
  exact ⟨fun ends => .of_noWrap invariant ends.insert_noWrap,
    fun accommodates => .of_accommodates invariant accommodates value⟩

end Ends

/-! ## Keys that no capacity separates -/

/-- Hashes whose low thirty-two bits are below thirty-two address block zero at every capacity. -/
theorem blockUnder_of_low {exponent : Nat} (narrow : exponent ≤ 32) {hash : BitVec 64}
    (low : hash.toNat % 2 ^ 32 < 32) : blockUnder exponent hash = 0 := by
  have fewer : hash.toNat % 2 ^ 32 % 2 ^ exponent = hash.toNat % 2 ^ exponent :=
    Nat.mod_mod_of_dvd _ (Nat.pow_dvd_pow 2 narrow)
  rw [blockUnder_eq, ← fewer]
  exact Nat.div_eq_of_lt ((Nat.mod_le _ _).trans_lt low)

/-- Such keys crowd block zero together. -/
theorem crowding_of_low {T : Traits κ υ} {s : Hashmap κ υ} {key : κ} {more : Nat}
    (narrow : s.exponent + more ≤ 32) (key_low : (T.hasher key).toNat % 2 ^ 32 < 32)
    (low : ∀ other ∈ s.keys, (T.hasher other).toNat % 2 ^ 32 < 32) :
    s.crowding T key more = s.entries.length := by
  have all_crowd : ∀ other ∈ s.keys,
      decide (blockUnder (s.exponent + more) (T.hasher other) =
        blockUnder (s.exponent + more) (T.hasher key)) = true := by
    intro other member
    rw [blockUnder_of_low narrow key_low, blockUnder_of_low narrow (low other member)]
    rfl
  rw [crowding, List.countP_eq_length.mpr all_crowd]
  exact List.length_map _

/-- Insert the keys below thirty-two. -/
def lowKeys : List (Op (BitVec 64) (BitVec 64)) :=
  (List.range 32).map fun nth => Op.insert (BitVec.ofNat 64 nth) 7#64

theorem lowKeys_outcome :
    NoWrap (session tempHash 32#32 lowKeys) ∧
      (session tempHash 32#32 lowKeys).result.map
        (fun outcome => (outcome.2.count, outcome.2.capacity)) = .ok (32#32, 32#32) := by
  decide +kernel

theorem lowKeys_reached :
    ∃ s, Reachable tempHash 32#32 s ∧ Invariant tempHash s ∧ s.count = 32#32 ∧
      s.capacity = 32#32 ∧ s.exponent = 5 ∧
      Represents s (referenceRun tempHash ∅ lowKeys).2 := by
  obtain ⟨s, returned, reachable, invariant, represents⟩ :=
    session_reachable tempHash (by decide) lowKeys_outcome.1
  have geometry := lowKeys_outcome.2
  rw [returned] at geometry
  obtain ⟨count_eq, capacity_eq⟩ : s.count = 32#32 ∧ s.capacity = 32#32 := by
    simpa [Except.map] using geometry
  refine ⟨s, reachable, invariant, count_eq, capacity_eq, ?_, represents⟩
  rw [exponent, capacity_eq]
  decide +kernel

theorem growthEnds_iff_lowKeys :
    ∃ s, Reachable tempHash 32#32 s ∧ s.count = 32#32 ∧ GrowthEnds tempHash s 32#64 9#64 := by
  obtain ⟨s, reachable, invariant, count_eq, capacity_eq, exponent_eq, represents⟩ :=
    lowKeys_reached
  refine ⟨s, reachable, count_eq, (growthEnds_iff reachable 32#64 9#64).mpr (Or.inr ⟨1, ?_, ?_⟩)⟩
  · rw [capacity_eq]
    decide
  · rw [represents.crowding_eq invariant, exponent_eq]
    decide +kernel

/-- With the keys below thirty-two stored, inserting `2 ^ 32` shifts the capacity out of its
thirty-two bits. -/
theorem not_growthEnds_lowKeys :
    ∃ s, Reachable tempHash 32#32 s ∧ s.count = 32#32 ∧
      ¬GrowthEnds tempHash s 0x100000000#64 9#64 ∧
      (insert tempHash s 0x100000000#64 9#64).result = .error .undefinedShift := by
  obtain ⟨s, reachable, invariant, count_eq, capacity_eq, exponent_eq, represents⟩ :=
    lowKeys_reached
  have keys_eq : (referenceRun tempHash ∅ lowKeys).2.keys =
      (Finset.range 32).image (BitVec.ofNat 64) := by
    decide +kernel
  have stored_low : ∀ other ∈ s.keys, other.toNat < 32 := by
    intro other member
    rw [← List.mem_toFinset, ← represents.keys_eq, keys_eq, Finset.mem_image] at member
    obtain ⟨nth, inside, rfl⟩ := member
    have small := Finset.mem_range.mp inside
    rw [BitVec.toNat_ofNat]
    omega
  have absent : 0x100000000#64 ∉ s.keys := fun member => by
    simpa using stored_low _ member
  have crowded : ∀ more ≤ 26, 32 ≤ s.crowding tempHash 0x100000000#64 more := by
    intro more before
    rw [crowding_of_low (by omega) (by decide) fun other member =>
      (Nat.mod_le _ _).trans_lt (stored_low other member), ← invariant.count_eq, count_eq]
    decide
  have insert_eq : insert tempHash s 0x100000000#64 9#64 =
      ⟨doublings s.capacity 27, .error .undefinedShift⟩ :=
    (growth_chain_fault 9#64 26 s invariant absent (by rw [capacity_eq]; decide) crowded 35).1
  refine ⟨s, reachable, count_eq, fun ends => ?_, by rw [insert_eq]⟩
  obtain ⟨s', returned, -⟩ := ends.insert_stores
  rw [insert_eq] at returned
  simp at returned

end RobinHoodHashmap
