import RobinHoodHashmap.Exhaustion
import RobinHoodHashmap.Order

/-!
# High-water marks

The capacity never shrinks, so after a run it remembers the finite maps the run has gone through: it
is the least doubling at which every one of them fits into its blocks.  Whether a run overflows, how
often it rehashes and at which capacities is a function of those finite maps.
-/

namespace RobinHoodHashmap

open Hashmap

variable {κ υ : Type}

/-! ## One call -/

section Step

variable [BEq κ] [LawfulBEq κ] {T : Traits κ υ} {s : Hashmap κ υ}

/-- A call that moves no pair and adds no key. -/
structure Quiet (T : Traits κ υ) (s s' : Hashmap κ υ) (answer : Answer υ) (op : Op κ υ) : Prop where
  /-- The call returns without a doubling. -/
  step_eq : step T s op = pure (answer, s')
  /-- The capacity stays. -/
  capacity_eq : s'.capacity = s.capacity
  /-- No key is new. -/
  keys_subset : ∀ key ∈ s'.keys, key ∈ s.keys

/-- A call that adds a key after a chain of doublings. -/
structure Adds (T : Traits κ υ) (s s' : Hashmap κ υ) (answer : Answer υ) (op : Op κ υ) (key : κ)
    (n : Nat) : Prop where
  /-- The key of the call. -/
  inserts : op.inserts = some key
  /-- It was not stored. -/
  absent : key ∉ s.keys
  /-- The doublings are as few as make room for it. -/
  least : IsLeast {more | s.crowding T key more < 32} n
  /-- The call returns after these doublings. -/
  step_eq : step T s op = ⟨doublings s.capacity n, .ok (answer, s')⟩
  /-- The capacity after them. -/
  capacity_eq : s'.capacity.toNat = s.capacity.toNat * 2 ^ n
  /-- The keys afterwards. -/
  keys_perm : s'.keys.Perm (key :: s.keys)

omit [BEq κ] [LawfulBEq κ] in
theorem keys_writeValue (T : Traits κ υ) {place : Place} {key : κ} {old : υ}
    (holds : s.Holds place ⟨key, old⟩) (value : υ) :
    ∃ s', writeValue T s place value = pure s' ∧ s'.capacity = s.capacity ∧
      s'.keys.Perm s.keys := by
  obtain ⟨block, block_eq, occupied, pair_eq⟩ := holds
  obtain ⟨rest, before, after⟩ := entries_setBlock_setValue block_eq occupied value
  refine ⟨_, writeValue_of_block block_eq value, rfl, ?_⟩
  exact (after.map KeyValuePair.key).trans (before.map KeyValuePair.key).symm

theorem index_outcome (invariant : Invariant T s) (key : κ) (no_wrap : NoWrap (index T s key)) :
    (∃ place value, index T s key = pure (place, s) ∧ s.Holds place ⟨key, value⟩) ∨
      ∃ n place s', key ∉ s.keys ∧ IsLeast {more | s.crowding T key more < 32} n ∧
        index T s key = ⟨doublings s.capacity n, .ok (place, s')⟩ ∧ Invariant T s' ∧
        s'.Holds place ⟨key, T.defaultValue⟩ ∧
        s'.capacity.toNat = s.capacity.toNat * 2 ^ n ∧ s'.keys.Perm (key :: s.keys) := by
  rcases find_spec invariant key with ⟨place, value, found, holds⟩ | ⟨missing, absent⟩
  · exact Or.inl ⟨place, value, index_of_found found, holds⟩
  · rw [index_of_missing missing] at no_wrap ⊢
    obtain ⟨n, least, bounded⟩ := exists_least_of_noWrap invariant absent (Or.inl no_wrap.first)
    obtain ⟨s', insert_eq, preserved, placed, capacity_eq⟩ :=
      insert_absent_spec invariant absent least bounded T.defaultValue
    have keys_perm : s'.keys.Perm (key :: s.keys) := placed.map KeyValuePair.key
    have member : ⟨key, T.defaultValue⟩ ∈ s'.entries := placed.mem_iff.mpr List.mem_cons_self
    rcases find_spec preserved key with ⟨place, value, found, holds⟩ | ⟨-, still_absent⟩
    · obtain rfl := holds.value_eq preserved member
      refine Or.inr ⟨n, place, s', absent, least, ?_, preserved, holds, capacity_eq, keys_perm⟩
      rw [insert_eq]
      exact Execution.ok_bind_of_pure _ (findAgain_of_found found)
    · exact (still_absent (mem_keys.mpr ⟨_, member⟩)).elim

theorem step_outcome (invariant : Invariant T s) (op : Op κ υ) (no_wrap : NoWrap (step T s op)) :
    ∃ answer s', Quiet T s s' answer op ∨ ∃ key n, Adds T s s' answer op key n := by
  cases op with
  | insert key value =>
      by_cases stored : key ∈ s.keys
      · obtain ⟨place, old, holds, insert_eq⟩ := insert_stored invariant stored value
        obtain ⟨s', written, capacity_eq, keys_perm⟩ := keys_writeValue T holds value
        refine ⟨.done, s', Or.inl ⟨?_, capacity_eq, fun other => keys_perm.mem_iff.mp⟩⟩
        rw [step, insert_eq, written, pure_bind]
      · obtain ⟨n, least, bounded⟩ :=
          exists_least_of_noWrap invariant stored (Or.inl no_wrap.first)
        obtain ⟨s', insert_eq, -, placed, capacity_eq⟩ :=
          insert_absent_spec invariant stored least bounded value
        refine ⟨.done, s', Or.inr ⟨key, n, rfl, stored, least, ?_, capacity_eq,
          placed.map KeyValuePair.key⟩⟩
        rw [step, insert_eq]
        exact Execution.ok_bind_of_pure _ rfl
  | find key =>
      rcases find_spec invariant key with ⟨place, value, found, holds⟩ | ⟨missing, -⟩
      · refine ⟨.pointer (some value), s, Or.inl ⟨?_, rfl, fun _ => id⟩⟩
        simp only [step, found, pure_bind, readValue_eq holds]
      · refine ⟨.pointer none, s, Or.inl ⟨?_, rfl, fun _ => id⟩⟩
        simp only [step, missing, pure_bind]
  | erase key =>
      rcases erase_spec invariant key with
        ⟨value, s', erased, -, -, removed, capacity_eq⟩ | ⟨missing, -⟩
      · refine ⟨.value value, s', Or.inl ⟨by rw [step, erased, pure_bind], capacity_eq, ?_⟩⟩
        intro other member
        obtain ⟨bound, entry⟩ := mem_keys.mp member
        exact mem_keys.mpr ⟨bound, (mem_withoutKey.mp (removed.mem_iff.mp entry)).1⟩
      · exact ⟨.value T.minusOne, s, Or.inl ⟨by rw [step, missing, pure_bind], rfl, fun _ => id⟩⟩
  | read key =>
      rcases index_outcome invariant key no_wrap.first with
        ⟨place, value, indexed, holds⟩ |
        ⟨n, place, s', absent, least, indexed, -, holds, capacity_eq, keys_perm⟩
      · refine ⟨.value value, s, Or.inl ⟨?_, rfl, fun _ => id⟩⟩
        simp only [step, indexed, pure_bind, readValue_eq holds]
      · refine ⟨.value T.defaultValue, s', Or.inr ⟨key, n, rfl, absent, least, ?_, capacity_eq,
          keys_perm⟩⟩
        rw [step, indexed]
        apply Execution.ok_bind_of_pure
        simp only [readValue_eq holds, pure_bind]
  | write key value =>
      rcases index_outcome invariant key no_wrap.first with
        ⟨place, old, indexed, holds⟩ |
        ⟨n, place, middle, absent, least, indexed, preserved, holds, capacity_eq, keys_perm⟩
      · obtain ⟨s', written, same_capacity, same_keys⟩ := keys_writeValue T holds value
        refine ⟨.done, s', Or.inl ⟨?_, same_capacity, fun other => same_keys.mem_iff.mp⟩⟩
        simp only [step, indexed, pure_bind, written]
      · obtain ⟨s', written, same_capacity, same_keys⟩ := keys_writeValue T holds value
        refine ⟨.done, s', Or.inr ⟨key, n, rfl, absent, least, ?_, by rw [same_capacity, capacity_eq],
          same_keys.trans keys_perm⟩⟩
        rw [step, indexed]
        apply Execution.ok_bind_of_pure
        simp only [written, pure_bind]
  | clear =>
      refine ⟨.done, clear T s, Or.inl ⟨rfl, rfl, fun key member => ?_⟩⟩
      rw [keys, (clear_spec invariant).2] at member
      exact (List.not_mem_nil member).elim
  | copy => exact ⟨.done, s, Or.inl ⟨by rw [step, copyConstruct_eq], rfl, fun _ => id⟩⟩
  | size => exact ⟨.size (size s).toNat, s, Or.inl ⟨rfl, rfl, fun _ => id⟩⟩

omit [BEq κ] [LawfulBEq κ] in
theorem noWrap_headerBlock_bind {α : Type} (T : Traits κ υ) (s : Hashmap κ υ) (nth : Nat)
    (next : Block κ υ → Exec α) (rest : ∀ block, NoWrap (next block)) :
    NoWrap (headerBlock T s nth >>= next) := by
  cases block_eq : s.memory[nth]? with
  | some block =>
      rw [headerBlock_eq T block_eq, pure_bind]
      exact rest block
  | none =>
      rw [headerBlock_missing T block_eq, Execution.fault_bind]
      exact fun _ impossible => nomatch impossible

theorem noWrap_index_iff (invariant : Invariant T s) (key : κ) :
    NoWrap (index T s key) ↔ Accommodates T s key := by
  constructor
  · intro no_wrap
    rcases find_spec invariant key with ⟨place, value, -, holds⟩ | ⟨missing, -⟩
    · exact Or.inl (mem_keys.mpr ⟨value, mem_entries_of_holds holds⟩)
    · rw [index_of_missing missing] at no_wrap
      exact .of_noWrap invariant no_wrap.first
  · exact fun accommodates =>
      noWrap_index invariant (noWrap_insert_of_accommodates invariant accommodates _)

/-- A call overflows no doubling exactly when the key it inserts, if any, finds room. -/
theorem noWrap_step_iff (invariant : Invariant T s) (op : Op κ υ) :
    NoWrap (step T s op) ↔ ∀ key, op.inserts = some key → Accommodates T s key := by
  have quiet : ∀ {α : Type} (value : α), NoWrap (pure value : Exec α) :=
    Execution.always_pure Doubles
  have own : ∀ {key : κ}, Accommodates T s key ↔
      ∀ other, some key = some other → Accommodates T s other := by
    intro key
    constructor
    · rintro accommodates _ ⟨⟩
      exact accommodates
    · exact fun all => all key rfl
  cases op with
  | insert key value =>
      refine Iff.trans ⟨fun no_wrap => .of_noWrap invariant no_wrap.first, fun accommodates => ?_⟩ own
      exact (noWrap_insert_of_accommodates invariant accommodates value).bind fun _ _ => quiet _
  | read key =>
      refine Iff.trans ⟨fun no_wrap => (noWrap_index_iff invariant key).mp no_wrap.first,
        fun accommodates => ?_⟩ own
      refine ((noWrap_index_iff invariant key).mpr accommodates).bind fun found _ => ?_
      simp only [readValue, bind_assoc, pure_bind]
      exact noWrap_headerBlock_bind T _ _ _ fun _ => quiet _
  | write key value =>
      refine Iff.trans ⟨fun no_wrap => (noWrap_index_iff invariant key).mp no_wrap.first,
        fun accommodates => ?_⟩ own
      refine ((noWrap_index_iff invariant key).mpr accommodates).bind fun found _ => ?_
      simp only [writeValue, bind_assoc, pure_bind]
      exact noWrap_headerBlock_bind T _ _ _ fun _ => quiet _
  | find key =>
      refine iff_of_true ?_ (by simp [Op.inserts])
      rcases find_spec invariant key with ⟨place, value, found, holds⟩ | ⟨missing, -⟩
      · simp only [step, found, pure_bind, readValue_eq holds]
        exact quiet _
      · simp only [step, missing, pure_bind]
        exact quiet _
  | erase key =>
      refine iff_of_true ?_ (by simp [Op.inserts])
      rcases erase_spec invariant key with ⟨value, s', erased, -⟩ | ⟨missing, -⟩
      · rw [step, erased, pure_bind]
        exact quiet _
      · rw [step, missing, pure_bind]
        exact quiet _
  | clear | copy | size => exact iff_of_true (quiet _) (by simp [Op.inserts])

end Step

/-! ## Whole runs -/

/-- The finite maps a run goes through, with those before and after it. -/
def visited [DecidableEq κ] (T : Traits κ υ) (m : Finmap fun _ : κ => υ) :
    List (Op κ υ) → List (Finmap fun _ : κ => υ)
  | [] => [m]
  | op :: ops => m :: visited T (reference T m op).2 ops

/-- No thirty-three keys of any of the maps share a block after `level` doublings. -/
def AllFitAfter [DecidableEq κ] (T : Traits κ υ) (capacity : BitVec 32)
    (maps : List (Finmap fun _ : κ => υ)) (level : Nat) : Prop :=
  ∀ m ∈ maps, FitsAfter T capacity m.keys level

/-- A table that has grown to the least level at which all sets of keys seen so far fit. -/
structure Tracked [DecidableEq κ] (T : Traits κ υ) (capacity : BitVec 32) (seen : Set (Finset κ))
    (s : Hashmap κ υ) (level : Nat) : Prop where
  /-- The representation invariant. -/
  invariant : Invariant T s
  /-- The capacity has been doubled once per level. -/
  capacity_eq : s.capacity.toNat = capacity.toNat * 2 ^ level
  /-- The stored keys have been seen. -/
  current : s.keys.toFinset ∈ seen
  /-- No lower level fits all of them. -/
  least : IsLeast (Levels.FitsAll (levelBlock T capacity) 32 seen) level

section Runs

variable [DecidableEq κ] {T : Traits κ υ} {capacity : BitVec 32} {seen : Set (Finset κ)}
  {s s' : Hashmap κ υ} {level : Nat} {m : Finmap fun _ : κ => υ}

theorem mem_or_inserts_of_mem_reference {op : Op κ υ} {key : κ} (member : key ∈ (reference T m op).2) :
    key ∈ m ∨ op.inserts = some key := by
  have after_insert : ∀ {other : κ} {value : υ}, key ∈ m.insert other value →
      key ∈ m ∨ some other = some key := by
    intro other value inserted
    rcases Finmap.mem_insert.mp inserted with rfl | before
    · exact Or.inr rfl
    · exact Or.inl before
  cases op with
  | insert other value | write other value => exact after_insert member
  | find _ | copy | size => exact Or.inl member
  | clear => exact (Finmap.notMem_empty member).elim
  | erase other =>
      cases found : m.lookup other with
      | some value =>
          rw [reference, found] at member
          exact Or.inl (Finmap.mem_erase.mp member).2
      | none =>
          rw [reference, found] at member
          exact Or.inl member
  | read other =>
      cases found : m.lookup other with
      | some value =>
          rw [reference, found] at member
          exact Or.inl member
      | none =>
          rw [reference, found] at member
          exact after_insert member

theorem keys_visited_subset {keys : Finset κ} {ops : List (Op κ υ)}
    (inserted : ∀ op ∈ ops, ∀ key, op.inserts = some key → key ∈ keys) (within : m.keys ⊆ keys) :
    ∀ m' ∈ visited T m ops, m'.keys ⊆ keys := by
  induction ops generalizing m with
  | nil =>
      intro m' member
      rwa [List.mem_singleton.mp member]
  | cons op ops induction =>
      have within' : (reference T m op).2.keys ⊆ keys := by
        intro key member
        rcases mem_or_inserts_of_mem_reference (Finmap.mem_keys.mp member) with before | inserts
        · exact within (Finmap.mem_keys.mpr before)
        · exact inserted op List.mem_cons_self key inserts
      intro m' member
      rcases List.mem_cons.mp member with rfl | later
      · exact within
      · exact induction (fun op member => inserted op (List.mem_cons_of_mem _ member)) within' m' later

theorem Represents.keys_reference (represents : Represents s m) {op : Op κ υ} {key : κ}
    (inserts : op.inserts = some key) (fresh : key ∉ s.keys.toFinset) :
    (reference T m op).2.keys = Finset.cons key s.keys.toFinset fresh := by
  have missing : m.lookup key = none := by
    apply represents.lookup_eq_none
    rwa [List.mem_toFinset] at fresh
  have grown : ∀ value, (m.insert key value).keys = Finset.cons key s.keys.toFinset fresh := by
    intro value
    ext other
    rw [Finmap.mem_keys, Finmap.mem_insert, Finset.mem_cons, ← represents.keys_eq, Finmap.mem_keys]
  cases op with
  | insert other value | write other value =>
      obtain rfl : other = key := by
        simpa [Op.inserts] using inserts
      exact grown value
  | read other =>
      obtain rfl : other = key := by
        simpa [Op.inserts] using inserts
      rw [reference, missing]
      exact grown T.defaultValue
  | find _ | erase _ | clear | copy | size => simp [Op.inserts] at inserts

theorem Tracked.crowding_eq (tracked : Tracked T capacity seen s level)
    (positive : capacity.toNat ≠ 0) (key : κ) (more : Nat) :
    s.crowding T key more =
      Levels.crowd (levelBlock T capacity) s.keys.toFinset key (level + more) := by
  rw [crowding_eq_card tracked.invariant, exponent, tracked.capacity_eq, log_mul_two_pow positive,
    Nat.add_assoc]
  rfl

theorem tracked_freshTable (T : Traits κ υ) (capacity_ge : 32 ≤ capacity.toNat) :
    Tracked T capacity {∅} (freshTable T capacity) 0 := by
  obtain ⟨invariant, entries_nil⟩ := freshTable_spec T capacity_ge
  refine ⟨invariant, by simp [freshTable], by simp [keys, entries_nil], ?_, fun _ _ => Nat.zero_le _⟩
  rintro _ rfl
  exact Levels.fits_empty 0

variable [BEq κ] [LawfulBEq κ]

/-- One call: its doublings lead to the least level at which the map after it fits too. -/
theorem Tracked.step (tracked : Tracked T capacity seen s level) (represents : Represents s m)
    (capacity_ge : 32 ≤ capacity.toNat) (op : Op κ υ) (no_wrap : NoWrap (step T s op)) :
    ∃ s' more, RobinHoodHashmap.step T s op =
        ⟨doublings s.capacity more, .ok ((reference T m op).1, s')⟩ ∧
      s.capacity.toNat * 2 ^ more < 2 ^ 32 ∧
      Tracked T capacity (Insert.insert (reference T m op).2.keys seen) s' (level + more) ∧
      Represents s' (reference T m op).2 := by
  obtain ⟨s', returned, preserved, represents'⟩ :=
    step_refines tracked.invariant represents op no_wrap
  rw [represents'.keys_eq]
  obtain ⟨answer, after, quiet | ⟨key, n, adds⟩⟩ := step_outcome tracked.invariant op no_wrap
  · obtain ⟨rfl, rfl⟩ : answer = (reference T m op).1 ∧ after = s' := by
      simpa [quiet.step_eq] using returned
    have subset : after.keys.toFinset ⊆ s.keys.toFinset := by
      intro key member
      rw [List.mem_toFinset] at member ⊢
      exact quiet.keys_subset key member
    have bounded : s.capacity.toNat * 2 ^ 0 < 2 ^ 32 := by
      rw [Nat.pow_zero, Nat.mul_one]
      exact s.capacity.isLt
    refine ⟨after, 0, quiet.step_eq, bounded, ⟨preserved, ?_, Set.mem_insert _ _, ?_⟩, represents'⟩
    · rw [quiet.capacity_eq, tracked.capacity_eq, Nat.add_zero]
    · rw [Levels.fitsAll_insert_of_subset tracked.current subset]
      exact tracked.least
  · obtain ⟨rfl, rfl⟩ : answer = (reference T m op).1 ∧ after = s' := by
      simpa [adds.step_eq] using returned
    have fresh : key ∉ s.keys.toFinset := by
      rw [List.mem_toFinset]
      exact adds.absent
    have keys_eq : after.keys.toFinset = Finset.cons key s.keys.toFinset fresh := by
      ext other
      rw [List.mem_toFinset, adds.keys_perm.mem_iff, List.mem_cons, Finset.mem_cons,
        List.mem_toFinset]
    have bounded : s.capacity.toNat * 2 ^ n < 2 ^ 32 := by
      rw [← adds.capacity_eq]
      exact after.capacity.isLt
    have least := adds.least
    simp only [tracked.crowding_eq (by omega)] at least
    refine ⟨after, n, adds.step_eq, bounded, ⟨preserved, ?_, Set.mem_insert _ _, ?_⟩, represents'⟩
    · rw [adds.capacity_eq, tracked.capacity_eq, Nat.pow_add, Nat.mul_assoc]
    · rw [keys_eq]
      exact Levels.isLeast_fitsAll_insert (refining_levelBlock T capacity_ge) tracked.current fresh
        tracked.least least

/-- A call overflows no doubling when a representable level fits all maps seen and the one after it. -/
theorem Tracked.noWrap_step (tracked : Tracked T capacity seen s level) (represents : Represents s m)
    (capacity_ge : 32 ≤ capacity.toNat) (op : Op κ υ) {top : Nat}
    (bounded : capacity.toNat * 2 ^ top < 2 ^ 32)
    (fit : ∀ keys ∈ seen, FitsAfter T capacity keys top)
    (fit_after : FitsAfter T capacity (reference T m op).2.keys top) :
    NoWrap (RobinHoodHashmap.step T s op) := by
  rw [noWrap_step_iff tracked.invariant]
  intro key inserts
  by_cases stored : key ∈ s.keys
  · exact Or.inl stored
  · have level_le : level ≤ top := tracked.least.2 fit
    have fresh : key ∉ s.keys.toFinset := by
      rwa [List.mem_toFinset]
    rw [represents.keys_reference inserts fresh] at fit_after
    obtain ⟨-, room⟩ := (Levels.fits_cons_iff fresh top).mp fit_after
    refine Or.inr ⟨top - level, ?_, ?_⟩
    · rwa [tracked.capacity_eq, Nat.mul_assoc, ← Nat.pow_add, Nat.add_sub_cancel' level_le]
    · rwa [tracked.crowding_eq (by omega), Nat.add_sub_cancel' level_le]

omit [BEq κ] [LawfulBEq κ] [DecidableEq κ] in
theorem doublings_append {first second : BitVec 32} {n : Nat} (more : Nat)
    (bounded : first.toNat * 2 ^ n < 2 ^ 32) (reached : second.toNat = first.toNat * 2 ^ n) :
    doublings first (n + more) = doublings first n ++ doublings second more := by
  induction n generalizing first with
  | zero =>
      obtain rfl : second = first := by
        apply BitVec.eq_of_toNat_eq
        rw [reached, Nat.pow_zero, Nat.mul_one]
      rw [Nat.zero_add]
      rfl
  | succ n induction =>
      obtain ⟨doubles, rest⟩ := doubles_of_bounded bounded
      have doubled := shiftLeft_one_toNat doubles
      rw [Nat.add_right_comm, doublings, doublings, List.cons_append, induction]
      · rwa [doubled]
      · rw [reached, doubled]
        ring

/-- The sets of keys of several finite maps, besides those seen before. -/
def alsoSeen (seen : Set (Finset κ)) (maps : List (Finmap fun _ : κ => υ)) : Set (Finset κ) :=
  {keys | keys ∈ seen ∨ ∃ m ∈ maps, m.keys = keys}

omit [BEq κ] [LawfulBEq κ] in
theorem alsoSeen_visited_nil (current : m.keys ∈ seen) : alsoSeen seen (visited T m []) = seen := by
  ext keys
  constructor
  · rintro (before | ⟨m', member, rfl⟩)
    · exact before
    · rw [List.mem_singleton.mp member]
      exact current
  · exact Or.inl

omit [BEq κ] [LawfulBEq κ] in
theorem alsoSeen_visited_cons (current : m.keys ∈ seen) (op : Op κ υ) (ops : List (Op κ υ)) :
    alsoSeen (Insert.insert (reference T m op).2.keys seen) (visited T (reference T m op).2 ops) =
      alsoSeen seen (visited T m (op :: ops)) := by
  have head : (reference T m op).2 ∈ visited T (reference T m op).2 ops := by
    cases ops <;> exact List.mem_cons_self
  ext keys
  constructor
  · rintro ((rfl | before) | ⟨m', member, rfl⟩)
    · exact Or.inr ⟨_, List.mem_cons_of_mem _ head, rfl⟩
    · exact Or.inl before
    · exact Or.inr ⟨m', List.mem_cons_of_mem _ member, rfl⟩
  · rintro (before | ⟨m', member, rfl⟩)
    · exact Or.inl (Or.inr before)
    · rcases List.mem_cons.mp member with rfl | later
      · exact Or.inl (Or.inr current)
      · exact Or.inr ⟨m', later, rfl⟩

theorem Tracked.run (tracked : Tracked T capacity seen s level) (represents : Represents s m)
    (capacity_ge : 32 ≤ capacity.toNat) (ops : List (Op κ υ)) (no_wrap : NoWrap (run T s ops)) :
    ∃ s' more, RobinHoodHashmap.run T s ops =
        ⟨doublings s.capacity more, .ok ((referenceRun T m ops).1, s')⟩ ∧
      Tracked T capacity (alsoSeen seen (visited T m ops)) s' (level + more) ∧
      Represents s' (referenceRun T m ops).2 := by
  have current : m.keys ∈ seen := by
    rw [represents.keys_eq]
    exact tracked.current
  induction ops generalizing s m level seen with
  | nil =>
      refine ⟨s, 0, rfl, ?_, represents⟩
      rwa [alsoSeen_visited_nil current]
  | cons op ops induction =>
      obtain ⟨first, next⟩ := no_wrap.run_cons
      obtain ⟨middle, more, step_eq, bounded, tracked', represents'⟩ :=
        tracked.step represents capacity_ge op first
      obtain ⟨s', later, run_eq, tracked'', represents''⟩ :=
        induction tracked' represents' (next _ _ (by rw [step_eq])) (Set.mem_insert _ _)
      refine ⟨s', more + later, ?_, ?_, represents''⟩
      · have reached : middle.capacity.toNat = s.capacity.toNat * 2 ^ more := by
          rw [tracked'.capacity_eq, tracked.capacity_eq, Nat.pow_add, Nat.mul_assoc]
        rw [run_cons, step_eq, doublings_append later bounded reached, Execution.ok_bind]
        simp only [run_eq, Execution.ok_bind, Execution.log_pure, Execution.result_pure,
          List.append_nil]
        rfl
      · rw [← Nat.add_assoc, ← alsoSeen_visited_cons current op ops]
        exact tracked''

theorem Tracked.noWrap_run (tracked : Tracked T capacity seen s level) (represents : Represents s m)
    (capacity_ge : 32 ≤ capacity.toNat) (ops : List (Op κ υ)) {top : Nat}
    (bounded : capacity.toNat * 2 ^ top < 2 ^ 32) (fit : ∀ keys ∈ seen, FitsAfter T capacity keys top)
    (fit_visited : AllFitAfter T capacity (visited T m ops) top) :
    NoWrap (RobinHoodHashmap.run T s ops) := by
  induction ops generalizing s m level seen with
  | nil => exact Execution.always_pure _ _
  | cons op ops induction =>
      have rest_fit : AllFitAfter T capacity (visited T (reference T m op).2 ops) top :=
        fun m' member => fit_visited m' (List.mem_cons_of_mem _ member)
      have fit_after : FitsAfter T capacity (reference T m op).2.keys top := by
        apply rest_fit
        cases ops <;> exact List.mem_cons_self
      have first := tracked.noWrap_step represents capacity_ge op bounded fit fit_after
      obtain ⟨middle, more, step_eq, -, tracked', represents'⟩ :=
        tracked.step represents capacity_ge op first
      have still_fit : ∀ keys ∈ Insert.insert (reference T m op).2.keys seen,
          FitsAfter T capacity keys top := by
        rintro keys (rfl | before)
        · exact fit_after
        · exact fit keys before
      have later := induction tracked' represents' still_fit rest_fit
      rw [run_cons]
      refine first.bind fun stepped returned => ?_
      obtain rfl : ((reference T m op).1, middle) = stepped := by
        simpa [step_eq] using returned
      exact later.bind fun _ _ => Execution.always_pure _ _

/-- A run from a fresh table that overflows no doubling ends at the least level at which every finite
map it has gone through fits into its blocks. -/
theorem run_high_water (T : Traits κ υ) (capacity_ge : 32 ≤ capacity.toNat) (ops : List (Op κ υ))
    (no_wrap : NoWrap (run T (freshTable T capacity) ops)) :
    ∃ s level, run T (freshTable T capacity) ops =
        ⟨doublings capacity level, .ok ((referenceRun T ∅ ops).1, s)⟩ ∧
      s.capacity.toNat = capacity.toNat * 2 ^ level ∧
      IsLeast {level | AllFitAfter T capacity (visited T ∅ ops) level} level ∧
      Represents s (referenceRun T ∅ ops).2 := by
  have represents : Represents (freshTable T capacity) ∅ :=
    Represents.of_entries_nil (freshTable_spec T capacity_ge).2
  obtain ⟨s, level, run_eq, tracked, represents'⟩ :=
    (tracked_freshTable T capacity_ge).run represents capacity_ge ops no_wrap
  rw [Nat.zero_add] at tracked
  refine ⟨s, level, run_eq, tracked.capacity_eq, ?_, represents'⟩
  have same : Levels.FitsAll (levelBlock T capacity) 32 (alsoSeen {∅} (visited T ∅ ops)) =
      {level | AllFitAfter T capacity (visited T ∅ ops) level} := by
    ext other
    constructor
    · exact fun all m member => all m.keys (Or.inr ⟨m, member, rfl⟩)
    · rintro all keys (rfl | ⟨m, member, rfl⟩)
      · exact Levels.fits_empty other
      · exact all m member
  rw [← same]
  exact tracked.least

/-- It overflows no doubling exactly when some representable capacity fits all of them. -/
theorem noWrap_run_iff (T : Traits κ υ) (capacity_ge : 32 ≤ capacity.toNat) (ops : List (Op κ υ)) :
    NoWrap (run T (freshTable T capacity) ops) ↔ ∃ level, capacity.toNat * 2 ^ level < 2 ^ 32 ∧
      AllFitAfter T capacity (visited T ∅ ops) level := by
  constructor
  · intro no_wrap
    obtain ⟨s, level, -, capacity_eq, least, -⟩ := run_high_water T capacity_ge ops no_wrap
    refine ⟨level, ?_, least.1⟩
    rw [← capacity_eq]
    exact s.capacity.isLt
  · rintro ⟨top, bounded, fit⟩
    refine (tracked_freshTable T capacity_ge).noWrap_run
      (Represents.of_entries_nil (freshTable_spec T capacity_ge).2) capacity_ge ops bounded ?_ fit
    rintro _ rfl
    exact Levels.fits_empty top

/-- A session without overflow logs one chain of doublings, which ends at the least level at which every
finite map it has gone through fits into its blocks. -/
theorem session_high_water (T : Traits κ υ) (capacity_ge : 32 ≤ capacity.toNat) (ops : List (Op κ υ))
    (no_wrap : NoWrap (session T capacity ops)) :
    ∃ s level, session T capacity ops =
        ⟨doublings capacity level, .ok ((referenceRun T ∅ ops).1, s)⟩ ∧
      s.capacity.toNat = capacity.toNat * 2 ^ level ∧
      IsLeast {level | AllFitAfter T capacity (visited T ∅ ops) level} level ∧
      Represents s (referenceRun T ∅ ops).2 := by
  rw [session_eq T (ne_zero_of_block capacity_ge)] at no_wrap ⊢
  exact run_high_water T capacity_ge ops no_wrap

/-- A session overflows no doubling exactly when some representable capacity fits every finite map it
goes through. -/
theorem noWrap_session_iff (T : Traits κ υ) (capacity_ge : 32 ≤ capacity.toNat)
    (ops : List (Op κ υ)) :
    NoWrap (session T capacity ops) ↔ ∃ level, capacity.toNat * 2 ^ level < 2 ^ 32 ∧
      AllFitAfter T capacity (visited T ∅ ops) level := by
  rw [session_eq T (ne_zero_of_block capacity_ge)]
  exact noWrap_run_iff T capacity_ge ops

end Runs

theorem session_high_water_exercise :
    ∃ s, session tempHash 48#32 exercise =
        ⟨[48#32], .ok ((referenceRun tempHash ∅ exercise).1, s)⟩ ∧ s.capacity.toNat = 96 ∧
      Represents s (referenceRun tempHash ∅ exercise).2 := by
  obtain ⟨s, level, session_eq, capacity_eq, -, represents⟩ :=
    session_high_water tempHash (by decide) exercise exercise_outcome.1
  have geometry := exercise_outcome.2
  rw [session_eq] at geometry
  obtain ⟨-, reached⟩ : s.count = 33#32 ∧ s.capacity = 96#32 := by
    simpa [Except.map] using geometry
  rw [reached] at capacity_eq
  obtain rfl : level = 1 := by
    apply Nat.pow_right_injective le_rfl
    change 96 = 48 * 2 ^ level at capacity_eq
    change 2 ^ level = 2 ^ 1
    omega
  exact ⟨s, session_eq, by rw [reached]; rfl, represents⟩

theorem noWrap_session_iff_exercise :
    ∃ level, (48#32).toNat * 2 ^ level < 2 ^ 32 ∧
      AllFitAfter tempHash 48#32 (visited tempHash ∅ exercise) level :=
  (noWrap_session_iff tempHash (by decide) exercise).mp exercise_outcome.1

end RobinHoodHashmap
