import RobinHoodHashmap.Expansion
import RobinHoodHashmap.Representation

/-!
# Places of stored keys

Between two growths a stored key keeps its slot, so a pointer to its value stays valid.  Each call
writes at most one slot, and that slot is free or occupied by the key of the call: the search of a
block stops at no other key, and only a slot whose header is zero is filled.
-/

namespace RobinHoodHashmap

open Hashmap

variable {κ υ : Type}

namespace Hashmap

/-- Header and pair of a slot. -/
def cell (s : Hashmap κ υ) (place : Place) : Option (BitVec 16 × KeyValuePair κ υ) :=
  s.memory[place.block]?.map fun block => (block.header place.slot, block.pair place.slot)

/-- The slots that hold other keys than `key` keep header, key and value. -/
def Spares (key : κ) (s s' : Hashmap κ υ) : Prop :=
  ∀ place pair, s.Holds place pair → pair.key ≠ key → s'.cell place = s.cell place

theorem holds_iff_cell {s : Hashmap κ υ} {place : Place} {pair : KeyValuePair κ υ} :
    s.Holds place pair ↔ ∃ header, header ≠ 0#16 ∧ s.cell place = some (header, pair) := by
  simp only [Holds, cell, Option.map_eq_some_iff, Prod.mk.injEq]
  constructor
  · rintro ⟨block, block_eq, occupied, pair_eq⟩
    exact ⟨_, occupied, block, block_eq, rfl, pair_eq⟩
  · rintro ⟨header, occupied, block, block_eq, rfl, pair_eq⟩
    exact ⟨block, block_eq, occupied, pair_eq⟩

variable {s s' : Hashmap κ υ} {key : κ} {place : Place} {pair : KeyValuePair κ υ}

theorem Holds.of_cell_eq (holds : s.Holds place pair) (same : s'.cell place = s.cell place) :
    s'.Holds place pair := by
  rw [holds_iff_cell] at holds ⊢
  rwa [same]

theorem Spares.refl (key : κ) (s : Hashmap κ υ) : Spares key s s := fun _ _ _ _ => rfl

theorem Spares.trans {s'' : Hashmap κ υ} (first : Spares key s s') (second : Spares key s' s'') :
    Spares key s s'' := by
  intro place pair holds other
  have kept := first place pair holds other
  rw [second place pair (holds.of_cell_eq kept) other, kept]

/-- Replacing a block whose only changed slot is free or occupied by `key`. -/
theorem spares_setBlock {nth : Nat} {old new : Block κ υ} (block_eq : s.memory[nth]? = some old)
    {target : Fin 32} (own : old.header target ≠ 0#16 → (old.pair target).key = key)
    (others : ∀ slot ≠ target, new.header slot = old.header slot ∧ new.pair slot = old.pair slot) :
    Spares key s (s.setBlock nth new) := by
  obtain ⟨inside, -⟩ := List.getElem?_eq_some_iff.mp block_eq
  rintro ⟨block, slot⟩ pair ⟨found, found_eq, occupied, rfl⟩ other
  simp only [cell, memory_setBlock]
  by_cases same : nth = block
  · subst block
    rw [block_eq, Option.some.injEq] at found_eq
    subst found
    have distinct : slot ≠ target := by
      rintro rfl
      exact other (own occupied)
    obtain ⟨header_eq, pair_eq⟩ := others slot distinct
    rw [List.getElem?_set_self inside, block_eq, Option.map_some, Option.map_some, header_eq,
      pair_eq]
  · rw [List.getElem?_set_ne same]

end Hashmap

/-! ## What one call writes -/

section Calls

variable {T : Traits κ υ} {s : Hashmap κ υ} {key : κ} {place : Place}

theorem settled_spares (invariant : Invariant T s) (absent : key ∉ s.keys)
    (room : s.crowding T key 0 < 32) (value : υ) :
    Spares key s (s.settled T key value) ∧
      ∃ place, (s.settled T key value).Holds place ⟨key, value⟩ := by
  obtain ⟨block, block_eq⟩ := invariant.exists_home T key
  obtain ⟨slot, free⟩ := exists_freeSlot_of_room invariant block_eq room
  have member : ⟨key, value⟩ ∈ (s.settled T key value).entries :=
    (settled_spec invariant absent room value).2.1.mem_iff.mpr List.mem_cons_self
  refine ⟨?_, mem_entries.mp member⟩
  rw [settled_of_free block_eq free]
  have header_free := Block.header_of_freeSlot free
  refine spares_setBlock block_eq (fun occupied => (occupied header_free).elim)
    fun other distinct => ?_
  simp [Block.fill, distinct]

variable [BEq κ] [LawfulBEq κ]

theorem writeValue_spares (invariant : Invariant T s) {old : υ}
    (holds : s.Holds place ⟨key, old⟩) (value : υ) :
    ∃ s', writeValue T s place value = pure s' ∧ Invariant T s' ∧ Spares key s s' ∧
      s'.Holds place ⟨key, value⟩ := by
  obtain ⟨s', write_eq, preserved, -, -⟩ := writeValue_spec invariant holds value
  obtain ⟨block, block_eq, occupied, pair_eq⟩ := holds
  obtain ⟨inside, -⟩ := List.getElem?_eq_some_iff.mp block_eq
  obtain rfl : s.setBlock place.block (block.setValue place.slot value) = s' := by
    rw [writeValue_of_block block_eq] at write_eq
    have results := congrArg Execution.result write_eq
    simpa using results
  refine ⟨_, write_eq, preserved, spares_setBlock block_eq (fun _ => by rw [pair_eq])
    fun other distinct => ?_, block.setValue place.slot value, ?_, occupied, ?_⟩
  · simp [Block.setValue, distinct]
  · rw [memory_setBlock, List.getElem?_set_self inside]
  · simp [Block.setValue, pair_eq]

/-- An insertion that does not grow the table writes one slot, for a stored key its own. -/
theorem insert_spares (invariant : Invariant T s) (value : υ)
    (quiet : (insert T s key value).log = []) :
    ∃ s', insert T s key value = pure s' ∧ Invariant T s' ∧ Spares key s s' ∧
      ∃ place, s'.Holds place ⟨key, value⟩ ∧ (key ∈ s.keys → ∃ old, s.Holds place ⟨key, old⟩) := by
  by_cases stored : key ∈ s.keys
  · obtain ⟨place, old, holds, insert_eq⟩ := insert_stored invariant stored value
    obtain ⟨s', write_eq, preserved, spares, after⟩ := writeValue_spares invariant holds value
    exact ⟨s', insert_eq.trans write_eq, preserved, spares, place, after, fun _ => ⟨old, holds⟩⟩
  · by_cases room : s.crowding T key 0 < 32
    · obtain ⟨spares, place, after⟩ := settled_spares invariant stored room value
      exact ⟨_, (insertWithin_of_room invariant stored room 63 value).1,
        (settled_spec invariant stored room value).1, spares, place, after,
        fun member => (stored member).elim⟩
    · have grows := (insertWithin_of_crowded invariant stored (Nat.le_of_not_lt room) 63 value).1
      rw [insert, callDepth, grows, resizeWithin, bind_assoc, Execution.log_emit_bind] at quiet
      cases quiet

theorem find_of_holds (invariant : Invariant T s) {value : υ} (holds : s.Holds place ⟨key, value⟩) :
    find T s key = pure (some place) := by
  rcases find_spec invariant key with ⟨found, other, find_eq, found_holds⟩ | ⟨-, absent⟩
  · rw [find_eq, invariant.place_unique found_holds holds]
  · exact (absent (mem_keys.mpr ⟨value, mem_entries_of_holds holds⟩)).elim

theorem index_of_holds (invariant : Invariant T s) {value : υ}
    (holds : s.Holds place ⟨key, value⟩) : index T s key = pure (place, s) :=
  index_of_found (find_of_holds invariant holds)

theorem index_spares (invariant : Invariant T s) (quiet : (index T s key).log = []) :
    ∃ place value s', index T s key = pure (place, s') ∧ Invariant T s' ∧ Spares key s s' ∧
      s'.Holds place ⟨key, value⟩ := by
  rcases find_spec invariant key with ⟨place, value, found, holds⟩ | ⟨missing, -⟩
  · exact ⟨place, value, s, index_of_found found, invariant, .refl key s, holds⟩
  · have index_eq := index_of_missing missing
    rw [index_eq] at quiet
    obtain ⟨s', insert_eq, preserved, spares, place, holds, -⟩ :=
      insert_spares invariant T.defaultValue (Execution.log_first_eq_nil quiet)
    refine ⟨place, _, s', ?_, preserved, spares, holds⟩
    rw [index_eq, insert_eq, pure_bind, findAgain_of_found (find_of_holds preserved holds)]

theorem erase_spares (invariant : Invariant T s) (key : κ) :
    ∃ value s', erase T s key = pure (value, s') ∧ Invariant T s' ∧ Spares key s s' := by
  obtain ⟨block, block_eq⟩ := invariant.exists_home T key
  by_cases stored : key ∈ s.keys
  · obtain ⟨slot, found, occupied, rfl, -⟩ := invariant.exists_lookup block_eq stored
    refine ⟨_, _, erase_of_found block_eq found, (invariant.clearHeader block_eq occupied).1,
      spares_setBlock block_eq (fun _ => rfl) fun other distinct => ?_⟩
    simp [Block.clearHeader, distinct]
  · exact ⟨_, s, erase_of_missing block_eq ((invariant.lookup_eq_none_iff block_eq).mpr stored),
      invariant, .refl key s⟩

end Calls

/-! ## Runs between growths -/

namespace Op

/-- The key a call is about. -/
def subject : Op κ υ → Option κ
  | insert key _ => some key
  | find key => some key
  | erase key => some key
  | read key => some key
  | write key _ => some key
  | clear => none
  | copy => none
  | size => none

/-- Calls of `insert`, `find`, `erase` and `operator[]` that do not erase `key`. -/
def Keeps (key : κ) (op : Op κ υ) : Prop := op.subject ≠ none ∧ op ≠ erase key

/-- The value of `key` after a call, given its value before. -/
def written [BEq κ] (key : κ) (current : υ) : Op κ υ → υ
  | insert other value => if other == key then value else current
  | write other value => if other == key then value else current
  | _ => current

end Op

/-- The last value some calls write for `key`, or the value it had before them. -/
def lastWritten [BEq κ] (key : κ) (current : υ) (ops : List (Op κ υ)) : υ :=
  ops.foldl (Op.written key) current

section Runs

variable [BEq κ] [LawfulBEq κ] {T : Traits κ υ} {s : Hashmap κ υ} {place : Place} {key : κ}
  {value : υ}

theorem Op.written_of_ne {op : Op κ υ} {other : κ} (subject : op.subject = some other)
    (distinct : other ≠ key) : op.written key value = value := by
  cases op with
  | insert other' assigned =>
      obtain rfl : other' = other := Option.some.inj subject
      exact if_neg (by simpa using distinct)
  | write other' assigned =>
      obtain rfl : other' = other := Option.some.inj subject
      exact if_neg (by simpa using distinct)
  | _ => rfl

theorem step_spares (invariant : Invariant T s) {op : Op κ υ} {other : κ}
    (subject : op.subject = some other) (quiet : (step T s op).log = []) :
    ∃ answer s', step T s op = pure (answer, s') ∧ Invariant T s' ∧ Spares other s s' := by
  cases op with
  | insert other' assigned =>
      obtain rfl : other' = other := Option.some.inj subject
      obtain ⟨s', insert_eq, preserved, spares, -⟩ :=
        insert_spares invariant assigned (Execution.log_first_eq_nil quiet)
      exact ⟨.done, s', by rw [step, insert_eq, pure_bind], preserved, spares⟩
  | find other' =>
      rcases find_spec invariant other' with ⟨found, current, find_eq, holds⟩ | ⟨missing, -⟩
      · exact ⟨.pointer (some current), s, by simp only [step, find_eq, pure_bind, readValue_eq holds],
          invariant, .refl other s⟩
      · exact ⟨.pointer none, s, by simp only [step, missing, pure_bind], invariant, .refl other s⟩
  | erase other' =>
      obtain rfl : other' = other := Option.some.inj subject
      obtain ⟨erased, s', erase_eq, preserved, spares⟩ := erase_spares invariant other'
      exact ⟨.value erased, s', by rw [step, erase_eq, pure_bind], preserved, spares⟩
  | read other' =>
      obtain rfl : other' = other := Option.some.inj subject
      obtain ⟨found, current, s', index_eq, preserved, spares, holds⟩ :=
        index_spares invariant (Execution.log_first_eq_nil quiet)
      exact ⟨.value current, s', by simp only [step, index_eq, pure_bind, readValue_eq holds],
        preserved, spares⟩
  | write other' assigned =>
      obtain rfl : other' = other := Option.some.inj subject
      obtain ⟨found, current, middle, index_eq, kept, spares, holds⟩ :=
        index_spares invariant (Execution.log_first_eq_nil quiet)
      obtain ⟨s', write_eq, preserved, spares', -⟩ := writeValue_spares kept holds assigned
      exact ⟨.done, s', by simp only [step, index_eq, pure_bind, write_eq], preserved,
        spares.trans spares'⟩
  | clear => cases subject
  | copy => cases subject
  | size => cases subject

/-- A call about a stored key, other than erasing it, writes its value at most. -/
theorem step_own (invariant : Invariant T s) (holds : s.Holds place ⟨key, value⟩) {op : Op κ υ}
    (subject : op.subject = some key) (not_erased : op ≠ .erase key) :
    ∃ answer s', step T s op = pure (answer, s') ∧ Invariant T s' ∧
      s'.Holds place ⟨key, op.written key value⟩ := by
  have find_eq := find_of_holds invariant holds
  have index_eq := index_of_holds invariant holds
  cases op with
  | insert other assigned =>
      obtain rfl : other = key := Option.some.inj subject
      obtain ⟨found, old, found_holds, insert_eq⟩ := insert_stored invariant
        (mem_keys.mpr ⟨value, mem_entries_of_holds holds⟩) assigned
      obtain rfl := invariant.place_unique found_holds holds
      obtain ⟨s', write_eq, preserved, -, after⟩ := writeValue_spares invariant holds assigned
      refine ⟨.done, s', by rw [step, insert_eq, write_eq, pure_bind], preserved, ?_⟩
      simpa [Op.written] using after
  | find other =>
      obtain rfl : other = key := Option.some.inj subject
      exact ⟨.pointer (some value), s, by simp only [step, find_eq, pure_bind, readValue_eq holds],
        invariant, holds⟩
  | erase other =>
      obtain rfl : other = key := Option.some.inj subject
      exact (not_erased rfl).elim
  | read other =>
      obtain rfl : other = key := Option.some.inj subject
      exact ⟨.value value, s, by simp only [step, index_eq, pure_bind, readValue_eq holds],
        invariant, holds⟩
  | write other assigned =>
      obtain rfl : other = key := Option.some.inj subject
      obtain ⟨s', write_eq, preserved, -, after⟩ := writeValue_spares invariant holds assigned
      refine ⟨.done, s', by simp only [step, index_eq, pure_bind, write_eq], preserved, ?_⟩
      simpa [Op.written] using after
  | clear => cases subject
  | copy => cases subject
  | size => cases subject

theorem step_keeps (invariant : Invariant T s) (holds : s.Holds place ⟨key, value⟩) {op : Op κ υ}
    (keeps : op.Keeps key) (quiet : (step T s op).log = []) :
    ∃ answer s', step T s op = pure (answer, s') ∧ Invariant T s' ∧
      s'.Holds place ⟨key, op.written key value⟩ := by
  obtain ⟨other, subject⟩ := Option.ne_none_iff_exists'.mp keeps.1
  by_cases own : other = key
  · subst other
    exact step_own invariant holds subject keeps.2
  · obtain ⟨answer, s', step_eq, preserved, spares⟩ := step_spares invariant subject quiet
    rw [Op.written_of_ne subject own]
    exact ⟨answer, s', step_eq, preserved,
      holds.of_cell_eq (spares place _ holds (Ne.symm own))⟩

/-- A run between growths keeps the place of a stored key.  The induction is on the calls. -/
theorem run_keeps (invariant : Invariant T s) (holds : s.Holds place ⟨key, value⟩)
    (ops : List (Op κ υ)) (keeps : ∀ op ∈ ops, op.Keeps key) (quiet : (run T s ops).log = []) :
    ∃ answers s', run T s ops = pure (answers, s') ∧ Invariant T s' ∧
      s'.Holds place ⟨key, lastWritten key value ops⟩ := by
  induction ops generalizing s value with
  | nil => exact ⟨[], s, rfl, invariant, holds⟩
  | cons op ops induction =>
      rw [run_cons] at quiet ⊢
      obtain ⟨answer, middle, step_eq, kept, still⟩ := step_keeps invariant holds
        (keeps op List.mem_cons_self) (Execution.log_first_eq_nil quiet)
      rw [step_eq, pure_bind] at quiet ⊢
      obtain ⟨answers, s', run_eq, preserved, last⟩ := induction kept still
        (fun later member => keeps later (List.mem_cons_of_mem op member))
        (Execution.log_first_eq_nil quiet)
      rw [run_eq, pure_bind]
      exact ⟨answer :: answers, s', rfl, preserved, last⟩

/-- A pointer to the value of a stored key stays valid between growths: runs that do not erase the
key leave it in its slot, with the value last written for it, and calls about other keys do not
write that slot. -/
theorem pointers_stay_valid {capacity : BitVec 32} (reachable : Reachable T capacity s)
    (capacity_ge : 32 ≤ s.capacity.toNat) (holds : s.Holds place ⟨key, value⟩) :
    find T s key = pure (some place) ∧ index T s key = pure (place, s) ∧
      (∀ ops : List (Op κ υ), (∀ op ∈ ops, op.Keeps key) → (run T s ops).log = [] →
        ∃ answers s', run T s ops = pure (answers, s') ∧
          s'.Holds place ⟨key, lastWritten key value ops⟩ ∧
          find T s' key = pure (some place) ∧ index T s' key = pure (place, s') ∧
          readValue T s' place = pure (lastWritten key value ops)) ∧
      ∀ (op : Op κ υ) (other : κ), op.subject = some other → other ≠ key →
        (step T s op).log = [] →
          ∃ answer s', step T s op = pure (answer, s') ∧ s'.cell place = s.cell place := by
  have invariant := reachable.invariant (reachable.start_ge capacity_ge)
  refine ⟨find_of_holds invariant holds, index_of_holds invariant holds, ?_, ?_⟩
  · intro ops keeps quiet
    obtain ⟨answers, s', run_eq, preserved, last⟩ := run_keeps invariant holds ops keeps quiet
    exact ⟨answers, s', run_eq, last, find_of_holds preserved last, index_of_holds preserved last,
      readValue_eq last⟩
  · intro op other subject distinct quiet
    obtain ⟨answer, s', step_eq, -, spares⟩ := step_spares invariant subject quiet
    exact ⟨answer, s', step_eq, spares place _ holds distinct.symm⟩

end Runs

theorem settled_reachable [BEq κ] [LawfulBEq κ] (T : Traits κ υ) {capacity : BitVec 32}
    (capacity_ge : 32 ≤ capacity.toNat) (key : κ) (value : υ) : Reachable T capacity ((freshTable T capacity).settled T key value) := by
  obtain ⟨invariant, entries_eq⟩ := freshTable_spec T capacity_ge
  have absent : key ∉ (freshTable T capacity).keys := by
    simp [keys, entries_eq]
  have room : (freshTable T capacity).crowding T key 0 < 32 := by
    simp [crowding, keys, entries_eq]
  have inserted : step T (freshTable T capacity) (.insert key value) =
      pure (.done, (freshTable T capacity).settled T key value) := by
    rw [step, insert, callDepth, (insertWithin_of_room invariant absent room 63 value).1, pure_bind]
  have start : Reachable T capacity (freshTable T capacity) :=
    .construct (congrArg Execution.result (construct_eq T (ne_zero_of_block capacity_ge)))
  have quiet : NoWrap (step T (freshTable T capacity) (.insert key value)) := by
    rw [inserted]
    exact Execution.always_pure _ _
  exact start.step quiet (congrArg Execution.result inserted)

/-- The table of thirty-two slots with one key in its first slot. -/
def oneKey : Hashmap (BitVec 64) (BitVec 64) :=
  (freshTable tempHash 32#32).settled tempHash 6#64 1#64

theorem oneKey_reachable : Reachable tempHash 32#32 oneKey :=
  settled_reachable tempHash (by decide) 6#64 1#64

/-- Key seven gets the header of key six in the next slot. -/
theorem pointers_stay_valid_twins :
    ∃ answers s', run tempHash oneKey
        [.insert 7#64 5#64, .write 6#64 9#64, .erase 7#64, .read 39#64, .find 6#64] =
          pure (answers, s') ∧
      find tempHash s' 6#64 = pure (some ⟨0, 0⟩) ∧ readValue tempHash s' ⟨0, 0⟩ = pure 9#64 := by
  have holds : oneKey.Holds ⟨0, 0⟩ ⟨6#64, 1#64⟩ := ⟨_, rfl, by decide +kernel, by decide +kernel⟩
  obtain ⟨-, -, stays, -⟩ := pointers_stay_valid oneKey_reachable (by decide) holds
  obtain ⟨answers, s', run_eq, -, found, -, read_eq⟩ :=
    stays [.insert 7#64 5#64, .write 6#64 9#64, .erase 7#64, .read 39#64, .find 6#64]
      (by simp [Op.Keeps, Op.subject]) (by decide +kernel)
  exact ⟨answers, s', run_eq, found, read_eq⟩

end RobinHoodHashmap
