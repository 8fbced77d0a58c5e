import RobinHoodHashmap.Places
import RobinHoodHashmap.Sharding

/-!
# Blocks on their own

A call works on the home block of its key alone, and the home block is full or has room whatever the other
blocks hold.  As long as nothing is rehashed a table is therefore a family of independent blocks.
-/

namespace RobinHoodHashmap

open Hashmap

variable {κ υ : Type}

/-- The block a key belongs to under a mask. -/
def blockOf (T : Traits κ υ) (bitMask : BitVec 32) (key : κ) : Nat :=
  (nthHeaderBlock (home (T.hasher key) bitMask)).toNat

/-- A call works on a block: `clear` and a copy on every one, `size` on none. -/
def concerns (T : Traits κ υ) (bitMask : BitVec 32) (nth : Nat) : Op κ υ → Bool
  | .size => false
  | op => op.subject.all fun key => blockOf T bitMask key == nth

namespace Block

variable [BEq κ] (T : Traits κ υ) (bitMask : BitVec 32) (block : Block κ υ)

/-- The value stored under a key. -/
def valueAt (key : κ) : Option υ := (block.lookup T bitMask key).map fun slot => (block.pair slot).value

/-- Fill a slot with a new pair. -/
def add (slot : Fin 32) (key : κ) (value : υ) : Block κ υ :=
  block.fill slot (headerOf slot (home (T.hasher key) bitMask) (T.hasher key)) key value

/-- Store a pair, under its key or in the first free slot; `none` when there is neither. -/
def assign (key : κ) (value : υ) : Option (Block κ υ) :=
  ((block.lookup T bitMask key).map fun slot => block.setValue slot value).or
    (block.freeSlot.map fun slot => block.add T bitMask slot key value)

/-- One call on a block of its own; `none` when the block is full. -/
def call : Op κ υ → Option (Answer υ × Block κ υ)
  | .insert key value => (block.assign T bitMask key value).map (.done, ·)
  | .find key => some (.pointer (block.valueAt T bitMask key), block)
  | .erase key => some <| (block.lookup T bitMask key).elim (.value T.minusOne, block) fun slot =>
      (.value (block.pair slot).value, block.clearHeader slot)
  | .read key => (block.valueAt T bitMask key).elim
      ((block.assign T bitMask key T.defaultValue).map (.value T.defaultValue, ·)) fun value =>
        some (.value value, block)
  | .write key value => (block.assign T bitMask key value).map (.done, ·)
  | .clear => some (.done, Block.zero T)
  | .copy => some (.done, block)
  | .size => some (.size block.entries.length, block)

end Block

/-! ## One call -/

section Step

variable {T : Traits κ υ} {s : Hashmap κ υ} {block : Block κ υ} {key : κ}

theorem setValue_add (bitMask : BitVec 32) (slot : Fin 32) (first value : υ) :
    (block.add T bitMask slot key first).setValue slot value = block.add T bitMask slot key value := by
  simp only [Block.add, Block.setValue, Block.fill, Function.update_self, Function.update_idem]

theorem value_pair_add (bitMask : BitVec 32) (slot : Fin 32) (value : υ) :
    ((block.add T bitMask slot key value).pair slot).value = value := by
  simp only [Block.add, Block.fill, Function.update_self]

theorem placed_in_home (block_eq : s.memory[s.homeBlock T key]? = some block) (slot : Fin 32) (value : υ) :
    (s.place T (s.homeBlock T key) block slot key value).memory[
        (s.place T (s.homeBlock T key) block slot key value).homeBlock T key]? =
      some (block.add T s.bitMask slot key value) :=
  getElem?_setBlock_self block_eq _

variable [BEq κ]

theorem lookup_add [LawfulBEq κ] {bitMask : BitVec 32} {slot : Fin 32} {value : υ}
    (missing : block.lookup T bitMask key = none) :
    (block.add T bitMask slot key value).lookup T bitMask key = some slot := by
  rw [Block.lookup, Block.search, Fin.find?_eq_none_iff] at missing
  rw [Block.lookup, Block.search, Fin.find?_eq_some_iff]
  constructor
  · simp [Block.add, Block.fill]
  · intro earlier before
    have other : earlier ≠ slot := before.ne
    simpa [Block.add, Block.fill, Function.update_of_ne other] using missing earlier

theorem Block.assign_of_found {slot : Fin 32} (found : block.lookup T s.bitMask key = some slot)
    (value : υ) : block.assign T s.bitMask key value = some (block.setValue slot value) := by
  rw [Block.assign, found, Option.map_some, Option.some_or]

theorem Block.assign_of_free {slot : Fin 32} (missing : block.lookup T s.bitMask key = none)
    (free : block.freeSlot = some slot) (value : υ) :
    block.assign T s.bitMask key value = some (block.add T s.bitMask slot key value) := by
  rw [Block.assign, missing, free, Option.map_none, Option.none_or, Option.map_some]

theorem Block.assign_of_full (missing : block.lookup T s.bitMask key = none)
    (full : block.freeSlot = none) (value : υ) : block.assign T s.bitMask key value = none := by
  rw [Block.assign, missing, full, Option.map_none, Option.none_or, Option.map_none]

theorem Block.valueAt_of_found {slot : Fin 32} (found : block.lookup T s.bitMask key = some slot) :
    block.valueAt T s.bitMask key = some (block.pair slot).value := by
  rw [Block.valueAt, found, Option.map_some]

theorem Block.valueAt_of_missing (missing : block.lookup T s.bitMask key = none) :
    block.valueAt T s.bitMask key = none := by
  rw [Block.valueAt, missing, Option.map_none]

/-- `insert` on its home block: the pair is stored there, or the block is full and the table doubles. -/
theorem insert_block (block_eq : s.memory[s.homeBlock T key]? = some block) (value : υ) :
    (block.assign T s.bitMask key value = none ∧ (insert T s key value).log ≠ []) ∨
      ∃ block' count, block.assign T s.bitMask key value = some block' ∧
        insert T s key value = pure ((s.setBlock (s.homeBlock T key) block').withCount count) := by
  cases found : block.lookup T s.bitMask key with
  | some slot =>
      right
      refine ⟨_, s.count, Block.assign_of_found found value, ?_⟩
      rw [insert, callDepth, insertWithin_of_found block_eq 63 value found]
      rfl
  | none =>
      cases free : block.freeSlot with
      | some slot =>
          right
          refine ⟨_, s.count + 1, Block.assign_of_free found free value, ?_⟩
          rw [insert, callDepth, insertWithin_of_free block_eq 63 value found free]
          rfl
      | none =>
          left
          refine ⟨Block.assign_of_full found free value, ?_⟩
          rw [insert, callDepth, insertWithin_of_full block_eq 63 value found free, resizeWithin,
            bind_assoc, Execution.log_emit_bind]
          exact List.cons_ne_nil _ _

theorem index_block [LawfulBEq κ] (block_eq : s.memory[s.homeBlock T key]? = some block) :
    (∃ slot, block.lookup T s.bitMask key = some slot ∧
        index T s key = pure (⟨s.homeBlock T key, slot⟩, s)) ∨
      (∃ slot, block.lookup T s.bitMask key = none ∧ block.freeSlot = some slot ∧ index T s key =
        pure (⟨s.homeBlock T key, slot⟩, s.place T (s.homeBlock T key) block slot key T.defaultValue)) ∨
      (block.lookup T s.bitMask key = none ∧ block.freeSlot = none ∧ (index T s key).log ≠ []) := by
  cases found : block.lookup T s.bitMask key with
  | some slot =>
      left
      refine ⟨slot, rfl, index_of_found ?_⟩
      rw [find_eq block_eq, found, Option.map_some]
  | none =>
      right
      have missing : find T s key = pure none := by
        rw [find_eq block_eq, found, Option.map_none]
      rw [index_of_missing missing, insert, callDepth]
      cases free : block.freeSlot with
      | some slot =>
          left
          have found_again : find T (s.place T (s.homeBlock T key) block slot key T.defaultValue) key =
              pure (some ⟨s.homeBlock T key, slot⟩) := by
            rw [find_eq (placed_in_home block_eq slot T.defaultValue)]
            exact congrArg (fun slot => pure (Option.map (Place.mk (s.homeBlock T key)) slot))
              (lookup_add found)
          refine ⟨slot, rfl, rfl, ?_⟩
          rw [insertWithin_of_free block_eq 63 _ found free, pure_bind, findAgain_of_found found_again]
      | none =>
          right
          refine ⟨rfl, rfl, ?_⟩
          rw [insertWithin_of_full block_eq 63 _ found free, resizeWithin, bind_assoc, bind_assoc,
            Execution.log_emit_bind]
          exact List.cons_ne_nil _ _

/-- A call comes out as on its home block alone, or finds the block full and doubles the table. -/
def Blockwise (T : Traits κ υ) (s : Hashmap κ υ) (nth : Nat) (block : Block κ υ) (op : Op κ υ) : Prop :=
  (block.call T s.bitMask op = none ∧ (step T s op).log ≠ []) ∨
    ∃ answer block' count, block.call T s.bitMask op = some (answer, block') ∧
      step T s op = pure (answer, (s.setBlock nth block').withCount count)

theorem insert_blockwise (block_eq : s.memory[s.homeBlock T key]? = some block) (value : υ) :
    Blockwise T s (s.homeBlock T key) block (.insert key value) := by
  rcases insert_block block_eq value with ⟨full, doubled⟩ | ⟨block', count, assigned, insert_eq⟩
  · left
    refine ⟨by rw [Block.call, full, Option.map_none], fun quiet => doubled ?_⟩
    exact Execution.log_first_eq_nil quiet
  · right
    refine ⟨.done, block', count, by rw [Block.call, assigned, Option.map_some], ?_⟩
    rw [step, insert_eq, pure_bind]

theorem find_blockwise (block_eq : s.memory[s.homeBlock T key]? = some block) :
    Blockwise T s (s.homeBlock T key) block (.find key) := by
  right
  refine ⟨.pointer (block.valueAt T s.bitMask key), block, s.count, rfl, ?_⟩
  rw [setBlock_self block_eq, step, find_eq block_eq, pure_bind]
  cases found : block.lookup T s.bitMask key with
  | some slot =>
      have read_eq : readValue T s ⟨s.homeBlock T key, slot⟩ = pure (block.pair slot).value :=
        readValue_of_block block_eq
      rw [Block.valueAt_of_found found, Option.map_some]
      simp only [read_eq, pure_bind]
      rfl
  | none =>
      rw [Block.valueAt_of_missing found]
      rfl

theorem erase_blockwise (block_eq : s.memory[s.homeBlock T key]? = some block) :
    Blockwise T s (s.homeBlock T key) block (.erase key) := by
  right
  cases found : block.lookup T s.bitMask key with
  | some slot =>
      refine ⟨.value (block.pair slot).value, block.clearHeader slot, s.count - 1, ?_, ?_⟩
      · rw [Block.call, found, Option.elim_some]
      · rw [step, erase_of_found block_eq found, pure_bind]
  | none =>
      refine ⟨.value T.minusOne, block, s.count, ?_, ?_⟩
      · rw [Block.call, found, Option.elim_none]
      · rw [step, erase_of_missing block_eq found, pure_bind, setBlock_self block_eq]
        rfl

variable [LawfulBEq κ]

theorem read_blockwise (block_eq : s.memory[s.homeBlock T key]? = some block) :
    Blockwise T s (s.homeBlock T key) block (.read key) := by
  rcases index_block block_eq with ⟨slot, found, indexed⟩ | ⟨slot, found, free, indexed⟩ |
    ⟨found, full, doubled⟩
  · right
    refine ⟨.value (block.pair slot).value, block, s.count, ?_, ?_⟩
    · rw [Block.call, Block.valueAt_of_found found, Option.elim_some]
    · have read_eq : readValue T s ⟨s.homeBlock T key, slot⟩ = pure (block.pair slot).value :=
        readValue_of_block block_eq
      simp only [step, indexed, pure_bind, setBlock_self block_eq, read_eq]
      rfl
  · right
    refine ⟨.value T.defaultValue, block.add T s.bitMask slot key T.defaultValue, s.count + 1, ?_, ?_⟩
    · rw [Block.call, Block.valueAt_of_missing found, Option.elim_none,
        Block.assign_of_free found free, Option.map_some]
    · have read_eq : readValue T (s.place T (s.homeBlock T key) block slot key T.defaultValue)
          ⟨s.homeBlock T key, slot⟩ = pure T.defaultValue := by
        rw [readValue_of_block (placed_in_home block_eq slot T.defaultValue), value_pair_add]
      simp only [step, indexed, pure_bind, read_eq]
      rfl
  · left
    refine ⟨?_, fun quiet => doubled (Execution.log_first_eq_nil quiet)⟩
    rw [Block.call, Block.valueAt_of_missing found, Option.elim_none,
      Block.assign_of_full found full, Option.map_none]

theorem write_blockwise (block_eq : s.memory[s.homeBlock T key]? = some block) (value : υ) :
    Blockwise T s (s.homeBlock T key) block (.write key value) := by
  rcases index_block block_eq with ⟨slot, found, indexed⟩ | ⟨slot, found, free, indexed⟩ |
    ⟨found, full, doubled⟩
  · right
    refine ⟨.done, block.setValue slot value, s.count, ?_, ?_⟩
    · rw [Block.call, Block.assign_of_found found, Option.map_some]
    · have write_eq : writeValue T s ⟨s.homeBlock T key, slot⟩ value =
          pure (s.setBlock (s.homeBlock T key) (block.setValue slot value)) :=
        writeValue_of_block block_eq value
      simp only [step, indexed, pure_bind, write_eq]
      rfl
  · right
    -- The default value `operator[]` stores first is overwritten in the slot it just filled.
    refine ⟨.done, block.add T s.bitMask slot key value, s.count + 1, ?_, ?_⟩
    · rw [Block.call, Block.assign_of_free found free, Option.map_some]
    · have write_eq : writeValue T (s.place T (s.homeBlock T key) block slot key T.defaultValue)
          ⟨s.homeBlock T key, slot⟩ value = pure ((s.place T (s.homeBlock T key) block slot key
            T.defaultValue).setBlock (s.homeBlock T key) (block.add T s.bitMask slot key value)) := by
        rw [writeValue_of_block (placed_in_home block_eq slot T.defaultValue), setValue_add]
      rw [← setBlock_setBlock s _ (block.add T s.bitMask slot key T.defaultValue)]
      simp only [step, indexed, pure_bind, write_eq]
      rfl
  · left
    refine ⟨?_, fun quiet => doubled (Execution.log_first_eq_nil quiet)⟩
    rw [Block.call, Block.assign_of_full found full, Option.map_none]

/-- A call with a key is a call on the home block of the key. -/
theorem step_blockwise (block_eq : s.memory[s.homeBlock T key]? = some block) {op : Op κ υ}
    (subject : op.subject = some key) : Blockwise T s (s.homeBlock T key) block op := by
  cases op with
  | clear | copy | size => simp [Op.subject] at subject
  | insert other value =>
      obtain rfl : other = key := Option.some.inj subject
      exact insert_blockwise block_eq value
  | find other =>
      obtain rfl : other = key := Option.some.inj subject
      exact find_blockwise block_eq
  | erase other =>
      obtain rfl : other = key := Option.some.inj subject
      exact erase_blockwise block_eq
  | read other =>
      obtain rfl : other = key := Option.some.inj subject
      exact read_blockwise block_eq
  | write other value =>
      obtain rfl : other = key := Option.some.inj subject
      exact write_blockwise block_eq value

end Step

/-! ## The family of blocks -/

section Quiet

variable [BEq κ] {T : Traits κ υ} {s s' : Hashmap κ υ} {op : Op κ υ} {answer : Answer υ}

/-- One call that rehashes nothing. -/
def quietStep (T : Traits κ υ) (s : Hashmap κ υ) (op : Op κ υ) : Option (Answer υ × Hashmap κ υ) :=
  if (step T s op).log = [] then (step T s op).result.toOption else none

theorem quietStep_eq_some_iff :
    quietStep T s op = some (answer, s') ↔ step T s op = pure (answer, s') := by
  constructor
  · intro called
    rw [quietStep] at called
    split_ifs at called with quiet
    cases returned : (step T s op).result with
    | error reason => simp [returned, Except.toOption] at called
    | ok outcome =>
        rw [returned] at called
        obtain rfl : outcome = (answer, s') := Option.some.inj called
        exact Execution.eq_pure quiet returned
  · intro step_eq
    rw [quietStep, step_eq, if_pos (Execution.log_pure _)]
    rfl

theorem quietStep_eq_none_of_log (doubled : (step T s op).log ≠ []) : quietStep T s op = none :=
  if_neg doubled

theorem run_eq_pure_iff {ops : List (Op κ υ)} {answers : List (Answer υ)} :
    run T s ops = pure (answers, s') ↔ Sharding.runs (quietStep T) s ops = some (answers, s') := by
  induction ops generalizing s answers with
  | nil =>
      constructor
      · intro run_eq
        have returned := congrArg Execution.result run_eq
        exact congrArg some (Except.ok.inj returned)
      · intro ran
        exact congrArg pure (Option.some.inj ran)
  | cons op ops induction =>
      rw [run_cons]
      constructor
      · intro run_eq
        have quiet : (step T s op).log = [] := Execution.log_first_eq_nil (congrArg Execution.log run_eq)
        obtain ⟨answer, middle, later, returned, rest_returned, rfl⟩ :=
          run_cons_eq_ok (congrArg Execution.result run_eq)
        have step_eq := Execution.eq_pure quiet returned
        rw [step_eq, pure_bind] at run_eq
        have rest_quiet := Execution.log_first_eq_nil (congrArg Execution.log run_eq)
        exact Sharding.runs_cons_of_some (quietStep_eq_some_iff.mpr step_eq)
          (induction.mp (Execution.eq_pure rest_quiet rest_returned))
      · intro ran
        obtain ⟨answer, middle, later, called, ran_rest, rfl⟩ := Sharding.runs_cons_eq_some ran
        rw [quietStep_eq_some_iff.mp called, pure_bind, induction.mpr ran_rest, pure_bind]

end Quiet

section Family

variable [BEq κ] [LawfulBEq κ] {T : Traits κ υ} {start s s' : Hashmap κ υ} {op : Op κ υ}
  {answer : Answer υ}

/-- A table grown out of another without a rehash. -/
structure Unresized (T : Traits κ υ) (start s : Hashmap κ υ) : Prop extends Invariant T s where
  capacity_eq : s.capacity = start.capacity
  mask_eq : s.bitMask = start.bitMask
  maxOffset_eq : s.maxOffset = start.maxOffset

/-- What a quiet call does: it works on the home block of its key, empties the table, or leaves it. -/
theorem quietStep_cases (invariant : Invariant T s) (called : quietStep T s op = some (answer, s')) :
    (∃ key block block' count, op.subject = some key ∧ s.memory[s.homeBlock T key]? = some block ∧
      block.call T s.bitMask op = some (answer, block') ∧
      s' = (s.setBlock (s.homeBlock T key) block').withCount count) ∨
    (op = .clear ∧ answer = .done ∧ s' = clear T s) ∨ (op = .copy ∧ answer = .done ∧ s' = s) ∨
      (op = .size ∧ s' = s) := by
  have step_eq := quietStep_eq_some_iff.mp called
  cases subject : op.subject with
  | some key =>
      left
      obtain ⟨block, block_eq⟩ := invariant.exists_home T key
      rcases step_blockwise block_eq subject with
        ⟨-, doubled⟩ | ⟨answer', block', count, call_eq, step_eq'⟩
      · rw [quietStep_eq_none_of_log doubled] at called
        exact (Option.some_ne_none _ called.symm).elim
      · rw [quietStep_eq_some_iff.mpr step_eq'] at called
        obtain ⟨rfl, rfl⟩ := Prod.mk.inj (Option.some.inj called)
        exact ⟨key, block, block', count, rfl, block_eq, call_eq, rfl⟩
  | none =>
      right
      have returned := congrArg Execution.result step_eq
      cases op with
      | insert | find | erase | read | write => simp [Op.subject] at subject
      | clear =>
          obtain ⟨rfl, rfl⟩ := Prod.mk.inj (Except.ok.inj returned)
          exact Or.inl ⟨rfl, rfl, rfl⟩
      | copy =>
          obtain ⟨rfl, rfl⟩ := Prod.mk.inj (Except.ok.inj returned)
          exact Or.inr (Or.inl ⟨rfl, rfl, copyConstruct_eq T s⟩)
      | size =>
          obtain ⟨rfl, rfl⟩ := Prod.mk.inj (Except.ok.inj returned)
          exact Or.inr (Or.inr ⟨rfl, rfl⟩)

theorem Unresized.quietStep (unresized : Unresized T start s)
    (called : quietStep T s op = some (answer, s')) : Unresized T start s' := by
  have step_eq := quietStep_eq_some_iff.mp called
  have no_wrap : NoWrap (step T s op) := step_eq ▸ Execution.always_pure _ _
  have preserved := step_invariant unresized.toInvariant no_wrap (congrArg Execution.result step_eq)
  rcases quietStep_cases unresized.toInvariant called with ⟨key, block, block', count, -, -, -, rfl⟩ |
    ⟨-, -, rfl⟩ | ⟨-, -, rfl⟩ | ⟨-, rfl⟩
  all_goals exact ⟨preserved, unresized.capacity_eq, unresized.mask_eq, unresized.maxOffset_eq⟩

omit [BEq κ] [LawfulBEq κ] in
theorem concerns_of_subject {bitMask : BitVec 32} {nth : Nat} {key : κ} (subject : op.subject = some key) :
    concerns T bitMask nth op = (blockOf T bitMask key == nth) := by
  cases op with
  | clear | copy | size => simp [Op.subject] at subject
  | insert | find | erase | read | write =>
      obtain rfl := Option.some.inj subject
      rfl

/-- A table between rehashes is the family of its blocks. -/
theorem sharded (T : Traits κ υ) (start : Hashmap κ υ) :
    Sharding.Sharded (quietStep T) (Block.call T start.bitMask) (fun s nth => s.memory[nth]?)
      (concerns T start.bitMask) (Unresized T start) where
  refused := by
    intro s op unresized refused
    cases subject : op.subject with
    | some key =>
        obtain ⟨block, block_eq⟩ := unresized.exists_home T key
        rcases step_blockwise block_eq subject with ⟨full, -⟩ | ⟨answer, block', count, -, step_eq⟩
        · rw [unresized.mask_eq] at full
          refine ⟨s.homeBlock T key, block, ?_, block_eq, full⟩
          rw [concerns_of_subject subject, ← unresized.mask_eq]
          exact beq_self_eq_true _
        · rw [quietStep_eq_some_iff.mpr step_eq] at refused
          exact (Option.some_ne_none _ refused).elim
    | none =>
        cases op with
        | insert | find | erase | read | write => simp [Op.subject] at subject
        | clear | copy | size => exact (Option.some_ne_none _ refused).elim
  valid := Unresized.quietStep
  concerned := by
    intro s op answer s' nth block unresized called block_eq own
    rcases quietStep_cases unresized.toInvariant called with
      ⟨key, home_block, block', count, subject, home_eq, call_eq, rfl⟩ | ⟨rfl, rfl, rfl⟩ |
      ⟨rfl, rfl, rfl⟩ | ⟨rfl, -⟩
    · rw [concerns_of_subject subject, ← unresized.mask_eq] at own
      obtain rfl : s.homeBlock T key = nth := eq_of_beq own
      obtain rfl : home_block = block := Option.some.inj (home_eq.symm.trans block_eq)
      rw [unresized.mask_eq] at call_eq
      exact ⟨block', call_eq, getElem?_setBlock_self home_eq block'⟩
    · refine ⟨Block.zero T, rfl, ?_⟩
      obtain ⟨inside, -⟩ := List.getElem?_eq_some_iff.mp block_eq
      rw [memory_clear, List.getElem?_replicate_of_lt inside]
    · exact ⟨block, rfl, block_eq⟩
    · exact (Bool.false_ne_true own).elim
  unconcerned := by
    intro s op answer s' nth unresized called other
    rcases quietStep_cases unresized.toInvariant called with
      ⟨key, block, block', count, subject, home_eq, call_eq, rfl⟩ | ⟨rfl, -, -⟩ | ⟨-, -, rfl⟩ | ⟨-, rfl⟩
    · rw [concerns_of_subject subject, ← unresized.mask_eq] at other
      have distinct : s.homeBlock T key ≠ nth := ne_of_beq_false other
      rw [memory_withCount, memory_setBlock, List.getElem?_set_ne distinct]
    · exact (Bool.false_ne_true other.symm).elim
    · rfl
    · rfl
  missing := by
    intro s op answer s' nth unresized called missing
    have length_eq := (unresized.quietStep called).capacity_eq.trans unresized.capacity_eq.symm
    rw [List.getElem?_eq_none_iff] at missing ⊢
    rwa [s'.allocated, length_eq, ← s.allocated]

omit [BEq κ] [LawfulBEq κ] in
theorem Unresized.refl (invariant : Invariant T s) : Unresized T s s := ⟨invariant, rfl, rfl, rfl⟩

theorem log_run_eq_nil_iff (invariant : Invariant T s) (ops : List (Op κ υ)) :
    (run T s ops).log = [] ↔ ∃ answers s', run T s ops = pure (answers, s') := by
  classical
  constructor
  · intro quiet
    obtain ⟨m, represents⟩ := Represents.exists_of_invariant invariant
    have no_wrap : NoWrap (run T s ops) := by
      intro event emitted
      rw [quiet] at emitted
      exact (List.not_mem_nil emitted).elim
    obtain ⟨s', returned, -, -⟩ := run_refines invariant represents ops no_wrap
    exact ⟨_, s', Execution.eq_pure quiet returned⟩
  · rintro ⟨answers, s', run_eq⟩
    rw [run_eq, Execution.log_pure]

omit [BEq κ] [LawfulBEq κ] in
theorem Unresized.eq_of_memory {t : Hashmap κ υ} (first : Unresized T start s)
    (second : Unresized T start t) (same : s.memory = t.memory) : s = t := by
  have count_eq : s.count = t.count := by
    apply BitVec.eq_of_toNat_eq
    rw [first.count_eq, second.count_eq, entries, entries, same]
  exact Hashmap.ext count_eq (first.capacity_eq.trans second.capacity_eq.symm)
    (first.maxOffset_eq.trans second.maxOffset_eq.symm) (first.mask_eq.trans second.mask_eq.symm) same

/-- A run rehashes nothing exactly when every block has room for the calls on its own keys.  Then each
block ends as it does alone under these calls, which get the same answers. -/
theorem run_blocks {capacity : BitVec 32} (reachable : Reachable T capacity s)
    (capacity_ge : 32 ≤ s.capacity.toNat) (ops : List (Op κ υ)) :
    ((run T s ops).log = [] ↔ ∀ nth block, s.memory[nth]? = some block →
      (Sharding.runs (Block.call T s.bitMask) block (ops.filter (concerns T s.bitMask nth))).isSome) ∧
    ((run T s ops).log = [] → ∃ answers s', run T s ops = pure (answers, s') ∧
      ∀ nth block, s.memory[nth]? = some block → ∃ block', s'.memory[nth]? = some block' ∧
        Sharding.runs (Block.call T s.bitMask) block (ops.filter (concerns T s.bitMask nth)) =
          some (Sharding.answersTo (concerns T s.bitMask nth) ops answers, block')) := by
  have invariant := reachable.invariant (reachable.start_ge capacity_ge)
  have unresized := Unresized.refl invariant
  constructor
  · rw [log_run_eq_nil_iff invariant, ← (sharded T s).isSome_runs_iff unresized ops,
      Option.isSome_iff_exists]
    simp only [Prod.exists, run_eq_pure_iff]
  · intro quiet
    obtain ⟨answers, s', run_eq⟩ := (log_run_eq_nil_iff invariant ops).mp quiet
    refine ⟨answers, s', run_eq, fun nth block block_eq => ?_⟩
    obtain ⟨block', ran, final⟩ := (sharded T s).run_shard unresized (run_eq_pure_iff.mp run_eq) block_eq
    exact ⟨block', final, ran⟩

/-- Between rehashes only the order of the calls on each block matters: two runs with the same calls on
every block in the same order end in the same table and give these calls the same answers. -/
theorem run_interleaved {capacity : BitVec 32} (reachable : Reachable T capacity s)
    (capacity_ge : 32 ≤ s.capacity.toNat) {ops ops' : List (Op κ υ)}
    (same : ∀ nth, ops.filter (concerns T s.bitMask nth) = ops'.filter (concerns T s.bitMask nth))
    (quiet : (run T s ops).log = []) :
    ∃ answers answers' s', run T s ops = pure (answers, s') ∧ run T s ops' = pure (answers', s') ∧
      ∀ nth < s.memory.length, Sharding.answersTo (concerns T s.bitMask nth) ops answers =
        Sharding.answersTo (concerns T s.bitMask nth) ops' answers' := by
  have invariant := reachable.invariant (reachable.start_ge capacity_ge)
  have unresized := Unresized.refl invariant
  obtain ⟨answers, s', run_eq⟩ := (log_run_eq_nil_iff invariant ops).mp quiet
  have ran := run_eq_pure_iff.mp run_eq
  obtain ⟨answers', s'', ran', blocks, alike⟩ := (sharded T s).interleaved unresized same ran
  obtain rfl : s'' = s' := ((sharded T s).valid_run unresized ran').eq_of_memory
    ((sharded T s).valid_run unresized ran) (List.ext_getElem? blocks)
  refine ⟨answers, answers', s'', run_eq, run_eq_pure_iff.mpr ran', fun nth inside => ?_⟩
  exact (alike nth _ (List.getElem?_eq_getElem inside)).symm

end Family

/-- Key thirty-eight has a block of its own among sixty-four slots. -/
theorem run_blocks_apart :
    ∃ answers s' block' own, run tempHash (freshTable tempHash 64#32)
        [.insert 6#64 1#64, .insert 38#64 2#64, .erase 6#64, .size] = pure (answers, s') ∧
      s'.memory[1]? = some block' ∧
      Sharding.runs (Block.call tempHash 63#32) (Block.zero tempHash) [.insert 38#64 2#64] =
        some (own, block') := by
  have start : Reachable tempHash 64#32 (freshTable tempHash 64#32) := .construct rfl
  obtain ⟨-, blocks⟩ := run_blocks start (by decide)
    [.insert 6#64 1#64, .insert 38#64 2#64, .erase 6#64, .size]
  obtain ⟨answers, s', run_eq, family⟩ := blocks (by decide +kernel)
  obtain ⟨block', final, ran⟩ := family 1 (Block.zero tempHash) rfl
  exact ⟨answers, s', block', _, run_eq, final, ran⟩

theorem run_interleaved_apart :
    ∃ answers answers' s', run tempHash (freshTable tempHash 64#32)
        [.insert 6#64 1#64, .insert 38#64 2#64, .read 7#64] = pure (answers, s') ∧
      run tempHash (freshTable tempHash 64#32)
        [.insert 38#64 2#64, .insert 6#64 1#64, .read 7#64] = pure (answers', s') := by
  have start : Reachable tempHash 64#32 (freshTable tempHash 64#32) := .construct rfl
  have same : ∀ nth, [.insert 6#64 1#64, .insert 38#64 2#64, .read 7#64].filter
      (concerns tempHash (freshTable tempHash 64#32).bitMask nth) =
        [.insert 38#64 2#64, .insert 6#64 1#64, .read 7#64].filter
          (concerns tempHash (freshTable tempHash 64#32).bitMask nth) := by
    intro nth
    match nth with
    | 0 => rfl
    | 1 => rfl
    | nth + 2 => rfl
  obtain ⟨answers, answers', s', run_eq, run_eq', -⟩ :=
    run_interleaved start (by decide) same (by decide +kernel)
  exact ⟨answers, answers', s', run_eq, run_eq'⟩

end RobinHoodHashmap
