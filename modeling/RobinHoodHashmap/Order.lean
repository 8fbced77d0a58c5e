import RobinHoodHashmap.Expansion
import RobinHoodHashmap.Levels

/-!
# Order-independent growth

In a run that only inserts, the capacity is at every point the least doubling of the constructor's
capacity at which the keys inserted so far fit into their blocks.  It is a function of the set of
keys; neither their order nor repetitions change it.
-/

namespace RobinHoodHashmap

open Hashmap

variable {κ υ : Type}

/-- The key a call inserts when it is absent. -/
def Op.inserts : Op κ υ → Option κ
  | .insert key _ | .read key | .write key _ => some key
  | .find _ | .erase _ | .clear | .copy | .size => none

/-- The keys of a run. -/
def insertedKeys [DecidableEq κ] (ops : List (Op κ υ)) : Finset κ :=
  (ops.filterMap Op.inserts).toFinset

/-- Block of a key after `level` doublings of a capacity. -/
def levelBlock (T : Traits κ υ) (capacity : BitVec 32) (level : Nat) (key : κ) : Nat :=
  blockUnder (Nat.log 2 capacity.toNat + level) (T.hasher key)

/-- No thirty-three of the keys share a block after `level` doublings. -/
def FitsAfter (T : Traits κ υ) (capacity : BitVec 32) (keys : Finset κ) (level : Nat) : Prop :=
  Levels.Fits (levelBlock T capacity) 32 keys level

theorem refining_levelBlock (T : Traits κ υ) {capacity : BitVec 32} (capacity_ge : 32 ≤ capacity.toNat) :
    Levels.Refining (levelBlock T capacity) := by
  intro level first second same
  have wide : 5 ≤ Nat.log 2 capacity.toNat + level :=
    Nat.le_add_right_of_le (Nat.le_log_of_pow_le (by decide) capacity_ge)
  rw [levelBlock, levelBlock, ← Nat.add_assoc] at same
  rw [levelBlock, levelBlock, ← blockUnder_add_mod wide 1, same, blockUnder_add_mod wide]

theorem log_mul_two_pow {c : Nat} (positive : c ≠ 0) (level : Nat) :
    Nat.log 2 (c * 2 ^ level) = Nat.log 2 c + level := by
  induction level with
  | zero => simp
  | succ level induction =>
      rw [Nat.pow_succ, ← Nat.mul_assoc, Nat.log_mul_base (by decide), induction]
      · rfl
      · exact Nat.mul_ne_zero positive (Nat.two_pow_pos level).ne'

/-- A table has grown to the least level at which its keys fit. -/
structure Leveled [DecidableEq κ] (T : Traits κ υ) (capacity : BitVec 32) (s : Hashmap κ υ)
    (level : Nat) : Prop where
  /-- The representation invariant. -/
  invariant : Invariant T s
  /-- The capacity has been doubled once per level. -/
  capacity_eq : s.capacity.toNat = capacity.toNat * 2 ^ level
  /-- No lower level fits the stored keys. -/
  least : IsLeast {level | FitsAfter T capacity s.keys.toFinset level} level

section Leveled

variable [DecidableEq κ] {T : Traits κ υ} {capacity : BitVec 32} {s s' : Hashmap κ υ} {level : Nat}
  {key : κ}

/-- Keys of a table after one key has been inserted. -/
def Gains (s s' : Hashmap κ υ) (key : κ) : Prop :=
  ∀ other, other ∈ s'.keys ↔ other = key ∨ other ∈ s.keys

theorem Leveled.exponent_eq (leveled : Leveled T capacity s level) (positive : capacity.toNat ≠ 0) :
    s.exponent = Nat.log 2 capacity.toNat + level := by
  rw [exponent, leveled.capacity_eq, log_mul_two_pow positive]

theorem Leveled.crowding_eq (leveled : Leveled T capacity s level) (positive : capacity.toNat ≠ 0)
    (key : κ) (more : Nat) :
    s.crowding T key more = Levels.crowd (levelBlock T capacity) s.keys.toFinset key (level + more) := by
  rw [crowding_eq_card leveled.invariant, leveled.exponent_eq positive, Nat.add_assoc]
  rfl

theorem Leveled.of_same_keys (leveled : Leveled T capacity s level) (preserved : Invariant T s')
    (same_capacity : s'.capacity = s.capacity) (same_keys : ∀ other, other ∈ s'.keys ↔ other ∈ s.keys) :
    Leveled T capacity s' level := by
  refine ⟨preserved, by rw [same_capacity, leveled.capacity_eq], ?_⟩
  have keys_eq : s'.keys.toFinset = s.keys.toFinset := by
    ext other
    simp [same_keys]
  rw [keys_eq]
  exact leveled.least

theorem leveled_freshTable (T : Traits κ υ) (capacity_ge : 32 ≤ capacity.toNat) :
    Leveled T capacity (freshTable T capacity) 0 := by
  obtain ⟨invariant, entries_nil⟩ := freshTable_spec T capacity_ge
  refine ⟨invariant, by simp [freshTable], ?_, fun _ _ => Nat.zero_le _⟩
  have keys_nil : (freshTable T capacity).keys.toFinset = ∅ := by
    simp [keys, entries_nil]
  change FitsAfter T capacity _ 0
  rw [FitsAfter, keys_nil]
  exact Levels.fits_empty 0

omit [DecidableEq κ] in
theorem Gains.mem_iff_of_stored (gains : Gains s s' key) (stored : key ∈ s.keys) (other : κ) :
    other ∈ s'.keys ↔ other ∈ s.keys := by
  rw [gains other, or_iff_right_of_imp]
  rintro rfl
  exact stored

omit [DecidableEq κ] in
theorem Gains.refl_of_stored (stored : key ∈ s.keys) : Gains s s key := by
  intro other
  rw [or_iff_right_of_imp]
  rintro rfl
  exact stored

variable [BEq κ] [LawfulBEq κ]

omit [DecidableEq κ] in
theorem Assigned.gains {value : υ} (assigned : Assigned s s' key value) : Gains s s' key := by
  intro other
  have keys_perm := assigned.map KeyValuePair.key
  change s'.keys.Perm _ at keys_perm
  rw [keys_perm.mem_iff, List.map_cons, List.mem_cons]
  by_cases same : other = key
  · simp [same]
  · simp only [same, false_or, List.mem_map, mem_withoutKey, keys]
    constructor
    · rintro ⟨pair, ⟨member, -⟩, rfl⟩
      exact ⟨pair, member, rfl⟩
    · rintro ⟨pair, member, rfl⟩
      exact ⟨pair, ⟨member, same⟩, rfl⟩

theorem Leveled.write (leveled : Leveled T capacity s level) {place : Place} {old : υ}
    (holds : s.Holds place ⟨key, old⟩) (value : υ) :
    ∃ s', writeValue T s place value = pure s' ∧ Leveled T capacity s' level ∧
      ∀ other, other ∈ s'.keys ↔ other ∈ s.keys := by
  obtain ⟨s', written, preserved, assigned, same_capacity⟩ :=
    writeValue_spec leveled.invariant holds value
  have stored : key ∈ s.keys := mem_keys.mpr ⟨old, mem_entries_of_holds holds⟩
  have same_keys := assigned.gains.mem_iff_of_stored stored
  exact ⟨s', written, leveled.of_same_keys preserved same_capacity same_keys, same_keys⟩

/-- One insertion moves the table to the least level of its keys and the new one. -/
theorem Leveled.insert (leveled : Leveled T capacity s level) (capacity_ge : 32 ≤ capacity.toNat)
    {value : υ} (no_wrap : NoWrap (insert T s key value)) :
    ∃ s' level', (insert T s key value).result = .ok s' ∧ Leveled T capacity s' level' ∧
      Gains s s' key := by
  by_cases stored : key ∈ s.keys
  · obtain ⟨place, old, holds, insert_eq⟩ := insert_stored leveled.invariant stored value
    obtain ⟨s', written, after, same_keys⟩ := leveled.write holds value
    have gains : Gains s s' key := fun other =>
      (same_keys other).trans (Gains.refl_of_stored stored other)
    exact ⟨s', level, by rw [insert_eq, written]; rfl, after, gains⟩
  · have positive : capacity.toNat ≠ 0 := by omega
    obtain ⟨n, least, bounded⟩ := exists_least_of_noWrap leveled.invariant stored (Or.inl no_wrap)
    obtain ⟨s', insert_eq, preserved, placed, capacity_eq⟩ :=
      insert_absent_spec leveled.invariant stored least bounded value
    have gains : Gains s s' key := by
      intro other
      have keys_perm := placed.map KeyValuePair.key
      change s'.keys.Perm (key :: s.keys) at keys_perm
      rw [keys_perm.mem_iff, List.mem_cons]
    refine ⟨s', level + n, by rw [insert_eq], ⟨preserved, ?_, ?_⟩, gains⟩
    · rw [capacity_eq, leveled.capacity_eq, Nat.pow_add]
      ring
    · have fresh : key ∉ s.keys.toFinset := by
        rwa [List.mem_toFinset]
      have keys_eq : s'.keys.toFinset = Finset.cons key s.keys.toFinset fresh := by
        ext other
        simp [gains other]
      rw [keys_eq]
      apply Levels.isLeast_fits_cons (refining_levelBlock T capacity_ge) fresh leveled.least
      simpa only [leveled.crowding_eq positive] using least

theorem Leveled.step (leveled : Leveled T capacity s level) (capacity_ge : 32 ≤ capacity.toNat)
    {op : Op κ υ} (inserts : op.inserts = some key) (no_wrap : NoWrap (step T s op)) :
    ∃ answer s' level', (step T s op).result = .ok (answer, s') ∧ Leveled T capacity s' level' ∧
      Gains s s' key := by
  have indexed : NoWrap (index T s key) → ∃ place value s' level',
      (index T s key).result = .ok (place, s') ∧ Leveled T capacity s' level' ∧
        s'.Holds place ⟨key, value⟩ ∧ Gains s s' key := by
    intro index_no_wrap
    obtain ⟨place, value, s', returned, -, holds, effect⟩ :=
      index_spec leveled.invariant index_no_wrap
    rcases effect with ⟨rfl, stored⟩ | ⟨-, -, insert_no_wrap, inserted, -⟩
    · exact ⟨place, value, s', level, returned, leveled, holds,
        Gains.refl_of_stored stored⟩
    · obtain ⟨after, level', after_eq, after_leveled, gains⟩ :=
        leveled.insert capacity_ge insert_no_wrap
      obtain rfl : after = s' := by
        simpa [after_eq] using inserted
      exact ⟨place, value, after, level', returned, after_leveled, holds, gains⟩
  cases op with
  | insert other value =>
      obtain rfl : other = key := by
        simpa [Op.inserts] using inserts
      obtain ⟨s', level', returned, after_leveled, gains⟩ :=
        leveled.insert capacity_ge no_wrap.first
      refine ⟨.done, s', level', ?_, after_leveled, gains⟩
      rw [RobinHoodHashmap.step, Execution.result_bind_of_ok returned]
      rfl
  | read other =>
      obtain rfl : other = key := by
        simpa [Op.inserts] using inserts
      obtain ⟨place, value, s', level', returned, after_leveled, holds, gains⟩ :=
        indexed no_wrap.first
      refine ⟨.value value, s', level', ?_, after_leveled, gains⟩
      rw [RobinHoodHashmap.step, Execution.result_bind_of_ok returned]
      simp only [readValue_eq holds, pure_bind, Execution.result_pure]
  | write other value =>
      obtain rfl : other = key := by
        simpa [Op.inserts] using inserts
      obtain ⟨place, old, middle, level', returned, middle_leveled, holds, gains⟩ :=
        indexed no_wrap.first
      obtain ⟨s', written, after_leveled, same_keys⟩ := middle_leveled.write holds value
      refine ⟨.done, s', level', ?_, after_leveled, fun third => ?_⟩
      · rw [RobinHoodHashmap.step, Execution.result_bind_of_ok returned]
        simp only [written, pure_bind, Execution.result_pure]
      · rw [same_keys, gains third]
  | find _ | erase _ | clear | copy | size => simp [Op.inserts] at inserts

/-- A run of insertions reaches the least level of its keys. -/
theorem Leveled.run (leveled : Leveled T capacity s level) (capacity_ge : 32 ≤ capacity.toNat)
    {ops : List (Op κ υ)} (inserts : ∀ op ∈ ops, op.inserts.isSome)
    (no_wrap : NoWrap (run T s ops)) :
    ∃ answers s' level', (run T s ops).result = .ok (answers, s') ∧ Leveled T capacity s' level' ∧
      s'.keys.toFinset = insertedKeys ops ∪ s.keys.toFinset := by
  induction ops generalizing s level with
  | nil => exact ⟨[], s, level, rfl, leveled, by simp [insertedKeys]⟩
  | cons op ops induction =>
      obtain ⟨first, next⟩ := no_wrap.run_cons
      obtain ⟨key, key_eq⟩ := Option.isSome_iff_exists.mp (inserts op List.mem_cons_self)
      obtain ⟨answer, middle, middle_level, stepped, middle_leveled, gains⟩ :=
        leveled.step capacity_ge key_eq first
      obtain ⟨answers, s', level', ran, after, keys_eq⟩ := induction middle_leveled
        (fun other member => inserts other (List.mem_cons_of_mem _ member)) (next _ _ stepped)
      refine ⟨answer :: answers, s', level', ?_, after, ?_⟩
      · rw [run_cons, Execution.result_bind_of_ok stepped, Execution.result_bind_of_ok ran]
        rfl
      · rw [keys_eq]
        ext other
        simp only [insertedKeys, Finset.mem_union, List.mem_toFinset, List.filterMap_cons, key_eq,
          gains other, List.mem_cons]
        tauto

end Leveled

theorem Invariant.exists_holds_iff {T : Traits κ υ} {s : Hashmap κ υ} (invariant : Invariant T s)
    (nth : Nat) (key : κ) :
    (∃ slot value, s.Holds ⟨nth, slot⟩ ⟨key, value⟩) ↔ key ∈ s.keys ∧ s.homeBlock T key = nth := by
  constructor
  · rintro ⟨slot, value, holds⟩
    exact ⟨mem_keys.mpr ⟨value, mem_entries_of_holds holds⟩, (invariant.block_of_holds holds).symm⟩
  · rintro ⟨stored, rfl⟩
    obtain ⟨value, member⟩ := mem_keys.mp stored
    obtain ⟨place, holds⟩ := mem_entries.mp member
    have block_eq := invariant.block_of_holds holds
    rw [← block_eq]
    exact ⟨place.slot, value, holds⟩

/-- Two runs that insert the same set of keys, in any order and with any repetitions, end at the
least capacity at which the keys fit, with the same mask and the same keys in every block. -/
theorem insertOnly_order [BEq κ] [LawfulBEq κ] [DecidableEq κ] (T : Traits κ υ)
    {capacity : BitVec 32} (capacity_ge : 32 ≤ capacity.toNat) {ops ops' : List (Op κ υ)}
    (inserts : ∀ op ∈ ops, op.inserts.isSome) (inserts' : ∀ op ∈ ops', op.inserts.isSome)
    (same_keys : insertedKeys ops = insertedKeys ops') (no_wrap : NoWrap (session T capacity ops))
    (no_wrap' : NoWrap (session T capacity ops')) :
    ∃ answers s answers' s' level, (session T capacity ops).result = .ok (answers, s) ∧
      (session T capacity ops').result = .ok (answers', s') ∧
      IsLeast {level | FitsAfter T capacity (insertedKeys ops) level} level ∧
      s.capacity.toNat = capacity.toNat * 2 ^ level ∧ s'.capacity = s.capacity ∧
      s'.bitMask = s.bitMask ∧
      ∀ nth key, (∃ slot value, s.Holds ⟨nth, slot⟩ ⟨key, value⟩) ↔
        ∃ slot value, s'.Holds ⟨nth, slot⟩ ⟨key, value⟩ := by
  simp only [session_eq T (ne_zero_of_block capacity_ge)] at no_wrap no_wrap' ⊢
  have start := leveled_freshTable T capacity_ge
  have fresh_nil : (freshTable T capacity).keys.toFinset = ∅ := by
    rw [keys, (freshTable_spec T capacity_ge).2]
    rfl
  obtain ⟨answers, s, level, ran, leveled, keys_eq⟩ := start.run capacity_ge inserts no_wrap
  obtain ⟨answers', s', level', ran', leveled', keys_eq'⟩ :=
    start.run capacity_ge inserts' no_wrap'
  rw [fresh_nil, Finset.union_empty] at keys_eq keys_eq'
  have least := leveled.least
  have least' := leveled'.least
  rw [keys_eq] at least
  rw [keys_eq', ← same_keys] at least'
  obtain rfl : level = level' := least.unique least'
  have capacity_eq : s'.capacity = s.capacity := by
    apply BitVec.eq_of_toNat_eq
    rw [leveled.capacity_eq, leveled'.capacity_eq]
  have mask_eq : s'.bitMask = s.bitMask := by
    apply BitVec.eq_of_toNat_eq
    rw [leveled.invariant.bitMask_eq, leveled'.invariant.bitMask_eq, exponent, exponent, capacity_eq]
  refine ⟨answers, s, answers', s', level, ran, ran', least,
    leveled.capacity_eq, capacity_eq, mask_eq, fun nth key => ?_⟩
  rw [leveled.invariant.exists_holds_iff, leveled'.invariant.exists_holds_iff, homeBlock, homeBlock,
    mask_eq, ← List.mem_toFinset, ← List.mem_toFinset, keys_eq, keys_eq', same_keys]

/-- Insert the keys below thirty-three upwards. -/
def ascending : List (Op (BitVec 64) (BitVec 64)) :=
  (List.range 33).map fun nth => .insert (BitVec.ofNat 64 nth) 7#64

/-- Insert them downwards, the greatest one twice. -/
def descending : List (Op (BitVec 64) (BitVec 64)) :=
  .read 32#64 :: (List.range 33).reverse.map fun nth => .insert (BitVec.ofNat 64 nth) 8#64

theorem insertOnly_order_reversed :
    ∃ answers s answers' s', (session tempHash 48#32 ascending).result = .ok (answers, s) ∧
      (session tempHash 48#32 descending).result = .ok (answers', s') ∧
      s'.capacity = s.capacity ∧ s'.bitMask = s.bitMask := by
  have inserts : ∀ op ∈ ascending, op.inserts.isSome := by
    simp [ascending, Op.inserts]
  have inserts' : ∀ op ∈ descending, op.inserts.isSome := by
    simp [descending, Op.inserts]
  have same_keys : insertedKeys ascending = insertedKeys descending := by
    decide +kernel
  obtain ⟨answers, s, answers', s', level, returned, returned', -, -, capacity_eq, mask_eq, -⟩ :=
    insertOnly_order tempHash (by decide : 32 ≤ (48#32).toNat) inserts inserts' same_keys
      (by decide +kernel) (by decide +kernel)
  exact ⟨answers, s, answers', s', returned, returned', capacity_eq, mask_eq⟩

end RobinHoodHashmap
