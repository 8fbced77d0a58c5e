import RobinHoodHashmap.Run

/-!
# Dead cells

`erase` zeroes a header and leaves key and value in place.  Two tables that agree on their headers
and on the cells of occupied slots are indistinguishable, whatever the other cells hold: every run
answers, grows and stops alike in both.  Nothing here assumes a reachable table or a lawful
equality of keys.
-/

namespace RobinHoodHashmap

open Hashmap Execution Selection

variable {κ υ : Type}

/-- Blocks with the same headers, zero or odd, and the same pairs in occupied slots. -/
structure Block.SameLive (left right : Block κ υ) : Prop where
  /-- The headers agree. -/
  header_eq : left.header = right.header
  /-- A header is zero or odd. -/
  odd : ∀ slot, left.header slot = 0#16 ∨ (left.header slot).getLsbD 0 = true
  /-- Pairs agree where the header is nonzero. -/
  pair_eq : ∀ slot, left.header slot ≠ 0#16 → left.pair slot = right.pair slot

/-- Tables that differ in dead cells only. -/
structure Hashmap.SameLive (left right : Hashmap κ υ) : Prop extends Addressable left where
  /-- The counts agree. -/
  count_eq : left.count = right.count
  /-- The capacities agree. -/
  capacity_eq : left.capacity = right.capacity
  /-- The masks agree. -/
  mask_eq : left.bitMask = right.bitMask
  /-- The blocks agree up to dead cells. -/
  blocks : List.Forall₂ Block.SameLive left.memory right.memory

/-! ## Blocks -/

namespace Block.SameLive

variable {left right : Block κ υ}

theorem freeSlot_eq (same : SameLive left right) : left.freeSlot = right.freeSlot := by
  rw [freeSlot, freeSlot, same.header_eq]

theorem lookup_eq [BEq κ] (same : SameLive left right) (T : Traits κ υ) (bitMask : BitVec 32)
    (key : κ) : left.lookup T bitMask key = right.lookup T bitMask key := by
  rw [lookup, lookup, search, search]
  congr 1
  funext slot
  rw [← same.header_eq]
  by_cases tagged : left.header slot = headerOf slot (home (T.hasher key) bitMask) (T.hasher key)
  · have occupied : left.header slot ≠ 0#16 := by
      rw [tagged]
      exact headerOf_ne_zero _ _ _
    rw [same.pair_eq slot occupied]
  · have untagged := beq_eq_false_iff_ne.mpr tagged
    rw [untagged, Bool.false_and, Bool.false_and]

/-- The rehash scan reads occupied slots only. -/
theorem livePairs_eq (same : SameLive left right) : left.livePairs = right.livePairs := by
  rw [livePairs, livePairs, pairsWhere, pairsWhere, ← same.header_eq]
  apply List.map_congr_left
  intro slot selected
  apply same.pair_eq slot
  intro free
  simp [free] at selected

theorem setValue (same : SameLive left right) {slot : Fin 32} (occupied : left.header slot ≠ 0#16)
    (value : υ) : SameLive (left.setValue slot value) (right.setValue slot value) where
  header_eq := same.header_eq
  odd := same.odd
  pair_eq := by
    intro other other_occupied
    by_cases here : other = slot
    · subst other
      simp [Block.setValue, same.pair_eq slot occupied]
    · simp [Block.setValue, here, same.pair_eq other other_occupied]

theorem fill (same : SameLive left right) (slot : Fin 32) {header : BitVec 16}
    (header_odd : header.getLsbD 0 = true) (key : κ) (value : υ) :
    SameLive (left.fill slot header key value) (right.fill slot header key value) where
  header_eq := by
    simp only [Block.fill, same.header_eq]
  odd := by
    intro other
    by_cases here : other = slot
    · subst other
      exact Or.inr (by simpa [Block.fill] using header_odd)
    · simpa [Block.fill, here] using same.odd other
  pair_eq := by
    intro other other_occupied
    by_cases here : other = slot
    · subst other
      simp [Block.fill]
    · simp only [Block.fill, Function.update_of_ne here] at other_occupied ⊢
      exact same.pair_eq other other_occupied

theorem clearHeader (same : SameLive left right) (slot : Fin 32) :
    SameLive (left.clearHeader slot) (right.clearHeader slot) where
  header_eq := by
    simp only [Block.clearHeader, same.header_eq]
  odd := by
    intro other
    by_cases here : other = slot
    · exact Or.inl (by rw [here, header_clearHeader_self])
    · simpa [Block.clearHeader, here] using same.odd other
  pair_eq := by
    intro other other_occupied
    by_cases here : other = slot
    · exact (other_occupied (by rw [here, header_clearHeader_self])).elim
    · simp only [Block.clearHeader, Function.update_of_ne here] at other_occupied
      exact same.pair_eq other other_occupied

theorem zero (T : Traits κ υ) : SameLive (Block.zero T) (Block.zero T) :=
  ⟨rfl, fun _ => Or.inl rfl, fun _ _ => rfl⟩

end Block.SameLive

/-! ## Tables -/

/-- A place whose slot is occupied. -/
def Hashmap.Occupied (s : Hashmap κ υ) (place : Place) : Prop :=
  ∃ block, s.memory[place.block]? = some block ∧ block.header place.slot ≠ 0#16

namespace Hashmap.SameLive

variable {T : Traits κ υ} {s t : Hashmap κ υ}

theorem homeBlock_eq (same : SameLive s t) (T : Traits κ υ) (key : κ) :
    s.homeBlock T key = t.homeBlock T key := by
  rw [homeBlock, homeBlock, same.mask_eq]

theorem exists_home (same : SameLive s t) (T : Traits κ υ) (key : κ) :
    ∃ left right, s.memory[s.homeBlock T key]? = some left ∧
      t.memory[t.homeBlock T key]? = some right ∧ left.SameLive right := by
  obtain ⟨left, left_eq⟩ := same.toAddressable.exists_home T key
  obtain ⟨right, right_eq, alike⟩ := forall₂_getElem? same.blocks left_eq
  rw [same.homeBlock_eq] at right_eq
  exact ⟨left, right, left_eq, right_eq, alike⟩

theorem setBlock (same : SameLive s t) (nth : Nat) {left right : Block κ υ}
    (alike : left.SameLive right) : SameLive (s.setBlock nth left) (t.setBlock nth right) :=
  ⟨⟨same.capacity_ge, same.bitMask_eq⟩, same.count_eq, same.capacity_eq, same.mask_eq,
    forall₂_set same.blocks nth alike⟩

theorem withCount (same : SameLive s t) (count : BitVec 32) :
    SameLive (s.withCount count) (t.withCount count) :=
  ⟨⟨same.capacity_ge, same.bitMask_eq⟩, rfl, same.capacity_eq, same.mask_eq, same.blocks⟩

theorem place (same : SameLive s t) (T : Traits κ υ) (nth : Nat) {left right : Block κ υ}
    (alike : left.SameLive right) (slot : Fin 32) (key : κ) (value : υ) :
    SameLive (s.place T nth left slot key value) (t.place T nth right slot key value) := by
  rw [Hashmap.place, Hashmap.place, same.mask_eq, same.count_eq]
  exact (same.setBlock nth (alike.fill slot (headerOf_bit_zero _ _ _) key value)).withCount _

theorem livePairs_eq (same : SameLive s t) : s.livePairs = t.livePairs := by
  have lists : ∀ {lefts rights : List (Block κ υ)}, List.Forall₂ Block.SameLive lefts rights →
      lefts.flatMap Block.livePairs = rights.flatMap Block.livePairs := by
    intro lefts rights alike
    induction alike with
    | nil => rfl
    | cons head _ induction =>
        rw [List.flatMap_cons, List.flatMap_cons, head.livePairs_eq, induction]
  exact lists same.blocks

theorem doubled (same : SameLive s t) (T : Traits κ υ) (doubles : Doubles s.capacity) :
    SameLive (doubled T s) (RobinHoodHashmap.doubled T t) := by
  refine ⟨addressable_doubled same.toAddressable doubles, same.count_eq, ?_, ?_, ?_⟩
  · simp only [RobinHoodHashmap.doubled, same.capacity_eq]
  · simp only [RobinHoodHashmap.doubled, same.capacity_eq]
  · simp only [RobinHoodHashmap.doubled, same.capacity_eq]
    exact forall₂_replicate _ (Block.SameLive.zero T)

theorem clear (same : SameLive s t) (T : Traits κ υ) : SameLive (clear T s) (RobinHoodHashmap.clear T t) := by
  refine ⟨⟨same.capacity_ge, same.bitMask_eq⟩, rfl, same.capacity_eq, same.mask_eq, ?_⟩
  rw [memory_clear, memory_clear, same.blocks.length_eq]
  exact forall₂_replicate _ (Block.SameLive.zero T)

end Hashmap.SameLive

/-! ## Operations -/

section Operations

variable [BEq κ] {T : Traits κ υ} {s t : Hashmap κ υ}

/-- Equal answers, and tables that differ in dead cells only. -/
def Alike {α : Type} (left right : α × Hashmap κ υ) : Prop :=
  left.1 = right.1 ∧ left.2.SameLive right.2

theorem find_same (same : s.SameLive t) (T : Traits κ υ) (key : κ) :
    ∃ res, find T s key = pure res ∧ find T t key = pure res ∧
      ∀ place ∈ res, s.Occupied place := by
  obtain ⟨left, right, left_eq, right_eq, alike⟩ := same.exists_home T key
  refine ⟨_, find_eq left_eq, ?_, ?_⟩
  · rw [find_eq right_eq, same.homeBlock_eq, same.mask_eq, alike.lookup_eq]
  · intro place found
    obtain ⟨slot, slot_eq, rfl⟩ := Option.map_eq_some_iff.mp found
    exact ⟨left, left_eq, Block.occupied_of_lookup slot_eq⟩

omit [BEq κ] in
theorem readValue_same (same : s.SameLive t) {place : Place} (occupied : s.Occupied place) :
    ∃ value, readValue T s place = pure value ∧ readValue T t place = pure value := by
  obtain ⟨left, left_eq, live⟩ := occupied
  obtain ⟨right, right_eq, alike⟩ := forall₂_getElem? same.blocks left_eq
  refine ⟨(left.pair place.slot).value, readValue_of_block left_eq, ?_⟩
  rw [readValue_of_block right_eq, alike.pair_eq place.slot live]

omit [BEq κ] in
theorem writeValue_same (same : s.SameLive t) {place : Place} (occupied : s.Occupied place)
    (value : υ) :
    ∃ s' t', writeValue T s place value = pure s' ∧
      writeValue T t place value = pure t' ∧ s'.SameLive t' := by
  obtain ⟨left, left_eq, live⟩ := occupied
  obtain ⟨right, right_eq, alike⟩ := forall₂_getElem? same.blocks left_eq
  exact ⟨_, _, writeValue_of_block left_eq value, writeValue_of_block right_eq value,
    same.setBlock place.block (alike.setValue live value)⟩

theorem erase_same (same : s.SameLive t) (T : Traits κ υ) (key : κ) :
    ∃ value s' t', erase T s key = pure (value, s') ∧
      erase T t key = pure (value, t') ∧ s'.SameLive t' := by
  obtain ⟨left, right, left_eq, right_eq, alike⟩ := same.exists_home T key
  have lookup_eq : left.lookup T s.bitMask key = right.lookup T t.bitMask key := by
    rw [same.mask_eq, alike.lookup_eq]
  cases found : left.lookup T s.bitMask key with
  | none =>
      exact ⟨T.minusOne, s, t, erase_of_missing left_eq found,
        erase_of_missing right_eq (lookup_eq.symm.trans found), same⟩
  | some slot =>
      have live := Block.occupied_of_lookup found
      refine ⟨_, _, _, erase_of_found left_eq found, ?_,
        (same.setBlock _ (alike.clearHeader slot)).withCount _⟩
      rw [erase_of_found right_eq (lookup_eq.symm.trans found), alike.pair_eq slot live,
        same.homeBlock_eq, same.count_eq]

/-- One unfolding of `insert` in both tables. -/
theorem insertWithin_simulates (same : s.SameLive t) (depth : Nat) (key : κ) (value : υ)
    (grown : Simulates Doubles SameLive
      (resizeWithin T depth s >>= fun s => insertNewWithin T depth s key value)
      (resizeWithin T depth t >>= fun t => insertNewWithin T depth t key value)) :
    Simulates Doubles SameLive (insertWithin T (depth + 1) s key value)
      (insertWithin T (depth + 1) t key value) := by
  obtain ⟨left, right, left_eq, right_eq, alike⟩ := same.exists_home T key
  have lookup_eq : left.lookup T s.bitMask key = right.lookup T t.bitMask key := by
    rw [same.mask_eq, alike.lookup_eq]
  cases found : left.lookup T s.bitMask key with
  | some slot =>
      rw [insertWithin_of_found left_eq depth value found,
        insertWithin_of_found right_eq depth value (lookup_eq.symm.trans found),
        ← same.homeBlock_eq]
      exact Simulates.pure
        (same.setBlock _ (alike.setValue (Block.occupied_of_lookup found) value))
  | none =>
      have missing := lookup_eq.symm.trans found
      cases free : left.freeSlot with
      | some slot =>
          rw [insertWithin_of_free left_eq depth value found free,
            insertWithin_of_free right_eq depth value missing (alike.freeSlot_eq.symm.trans free),
            ← same.homeBlock_eq]
          exact Simulates.pure (same.place T _ alike slot key value)
      | none =>
          rw [insertWithin_of_full left_eq depth value found free,
            insertWithin_of_full right_eq depth value missing (alike.freeSlot_eq.symm.trans free)]
          exact grown

/-- One unfolding of `_insert_new` in both tables. -/
theorem insertNewWithin_simulates (same : s.SameLive t) (depth : Nat) (key : κ) (value : υ)
    (grown : Simulates Doubles SameLive
      (resizeWithin T depth s >>= fun s => insertWithin T depth s key value)
      (resizeWithin T depth t >>= fun t => insertWithin T depth t key value)) :
    Simulates Doubles SameLive (insertNewWithin T (depth + 1) s key value)
      (insertNewWithin T (depth + 1) t key value) := by
  obtain ⟨left, right, left_eq, right_eq, alike⟩ := same.exists_home T key
  cases free : left.freeSlot with
  | some slot =>
      rw [insertNewWithin_of_free left_eq depth value free,
        insertNewWithin_of_free right_eq depth value (alike.freeSlot_eq.symm.trans free),
        ← same.homeBlock_eq]
      exact Simulates.pure (same.place T _ alike slot key value)
  | none =>
      rw [insertNewWithin_of_full left_eq depth value free,
        insertNewWithin_of_full right_eq depth value (alike.freeSlot_eq.symm.trans free)]
      exact grown

/-- `_resize` in both tables: the scans visit the same pairs. -/
theorem resizeWithin_simulates (same : s.SameLive t) (depth : Nat)
    (nested : ∀ (s t : Hashmap κ υ) key value, s.SameLive t → Simulates Doubles SameLive
      (insertNewWithin T depth s key value) (insertNewWithin T depth t key value)) :
    Simulates Doubles SameLive (resizeWithin T (depth + 1) s) (resizeWithin T (depth + 1) t) := by
  rw [resizeWithin, resizeWithin, foldlM_rehashBlock, foldlM_rehashBlock, ← same.capacity_eq,
    ← same.livePairs_eq, ← same.count_eq]
  refine Simulates.emit fun doubles => ?_
  split_ifs with small
  · exact Simulates.bind
      (Simulates.foldlM (fun left right pair alike => nested left right pair.key pair.value alike)
        s.livePairs (same.doubled T doubles))
      fun _ _ alike => Simulates.pure (alike.withCount s.count)
  · exact Simulates.fault Fault.undefinedShift

/-- The induction is on the call depth and carries the three functions. -/
theorem within_simulates (T : Traits κ υ) (depth : Nat) :
    ∀ s t : Hashmap κ υ, s.SameLive t →
      (∀ key value, Simulates Doubles SameLive (insertWithin T depth s key value)
          (insertWithin T depth t key value)) ∧
        (∀ key value, Simulates Doubles SameLive (insertNewWithin T depth s key value)
          (insertNewWithin T depth t key value)) ∧
        Simulates Doubles SameLive (resizeWithin T depth s) (resizeWithin T depth t) := by
  induction depth with
  | zero =>
      intro s t _
      exact ⟨fun _ _ => Simulates.fault Fault.outOfFuel, fun _ _ => Simulates.fault Fault.outOfFuel,
        Simulates.fault Fault.outOfFuel⟩
  | succ depth induction =>
      intro s t same
      obtain ⟨-, -, resized⟩ := induction s t same
      refine ⟨fun key value => ?_, fun key value => ?_, ?_⟩
      · exact insertWithin_simulates same depth key value
          (resized.bind fun left right alike => (induction left right alike).2.1 key value)
      · exact insertNewWithin_simulates same depth key value
          (resized.bind fun left right alike => (induction left right alike).1 key value)
      · exact resizeWithin_simulates same depth
          fun left right key value alike => (induction left right alike).2.1 key value

theorem insert_simulates (same : s.SameLive t) (key : κ) (value : υ) :
    Simulates Doubles SameLive (insert T s key value) (insert T t key value) :=
  (within_simulates T callDepth s t same).1 key value

theorem findAgain_simulates (same : s.SameLive t) (T : Traits κ υ) (key : κ) :
    Simulates Doubles (fun left right => Alike left right ∧ left.2.Occupied left.1)
      (findAgain T s key) (findAgain T t key) := by
  obtain ⟨res, left_eq, right_eq, occupied⟩ := find_same same T key
  cases res with
  | none =>
      rw [findAgain_of_missing left_eq, findAgain_of_missing right_eq]
      exact Simulates.fault Fault.nullDereference
  | some place =>
      rw [findAgain_of_found left_eq, findAgain_of_found right_eq]
      exact Simulates.pure ⟨⟨rfl, same⟩, occupied place rfl⟩

/-- `operator[]` names the same place, whose slot is occupied, in both tables. -/
theorem index_simulates (same : s.SameLive t) (key : κ) :
    Simulates Doubles (fun left right => Alike left right ∧ left.2.Occupied left.1)
      (index T s key) (index T t key) := by
  obtain ⟨res, left_eq, right_eq, occupied⟩ := find_same same T key
  cases res with
  | none =>
      rw [index_of_missing left_eq, index_of_missing right_eq]
      exact (insert_simulates same key T.defaultValue).bind
        fun _ _ alike => findAgain_simulates alike T key
  | some place =>
      rw [index_of_found left_eq, index_of_found right_eq]
      exact Simulates.pure ⟨⟨rfl, same⟩, occupied place rfl⟩

end Operations

/-! ## Runs -/

section Runs

variable [BEq κ] {T : Traits κ υ} {s t : Hashmap κ υ}

theorem step_simulates (same : s.SameLive t) (op : Op κ υ) :
    Simulates Doubles Alike (step T s op) (step T t op) := by
  cases op with
  | insert key value =>
      exact (insert_simulates same key value).bind fun _ _ alike => Simulates.pure ⟨rfl, alike⟩
  | find key =>
      obtain ⟨res, left_eq, right_eq, occupied⟩ := find_same same T key
      rw [step, step, left_eq, right_eq, pure_bind, pure_bind]
      cases res with
      | none => exact Simulates.pure ⟨rfl, same⟩
      | some place =>
          obtain ⟨value, left_read, right_read⟩ := readValue_same (T := T) same (occupied place rfl)
          simp only [left_read, right_read, pure_bind]
          exact Simulates.pure ⟨rfl, same⟩
  | erase key =>
      obtain ⟨value, s', t', left_eq, right_eq, alike⟩ := erase_same same T key
      rw [step, step, left_eq, right_eq, pure_bind, pure_bind]
      exact Simulates.pure ⟨rfl, alike⟩
  | read key =>
      refine (index_simulates same key).bind ?_
      rintro ⟨place, left⟩ ⟨_, right⟩ ⟨⟨rfl, alike⟩, occupied⟩
      obtain ⟨value, left_read, right_read⟩ := readValue_same (T := T) alike occupied
      simp only [left_read, right_read, pure_bind]
      exact Simulates.pure ⟨rfl, alike⟩
  | write key value =>
      refine (index_simulates same key).bind ?_
      rintro ⟨place, left⟩ ⟨_, right⟩ ⟨⟨rfl, alike⟩, occupied⟩
      obtain ⟨s', t', left_written, right_written, after⟩ :=
        writeValue_same (T := T) alike occupied value
      simp only [left_written, right_written, pure_bind]
      exact Simulates.pure ⟨rfl, after⟩
  | clear => exact Simulates.pure ⟨rfl, same.clear T⟩
  | copy =>
      rw [step, step, copyConstruct_eq, copyConstruct_eq]
      exact Simulates.pure ⟨rfl, same⟩
  | size =>
      rw [step, step, size, size, same.count_eq]
      exact Simulates.pure ⟨rfl, same⟩

theorem run_simulates (same : s.SameLive t) (ops : List (Op κ υ)) :
    Simulates Doubles Alike (run T s ops) (run T t ops) := by
  induction ops generalizing s t with
  | nil => exact Simulates.pure ⟨rfl, same⟩
  | cons op ops induction =>
      rw [run_cons, run_cons]
      refine (step_simulates same op).bind ?_
      rintro ⟨answer, left⟩ ⟨_, right⟩ ⟨rfl, alike⟩
      refine (induction alike).bind ?_
      rintro ⟨answers, last⟩ ⟨_, last'⟩ ⟨rfl, after⟩
      exact Simulates.pure ⟨rfl, after⟩

/-- Whatever dead cells hold, a run emits the same doublings, gives the same answers or stops with
the same fault, and leaves tables that differ in dead cells only. -/
theorem dead_cells_unobservable (T : Traits κ υ) (same : s.SameLive t) (ops : List (Op κ υ))
    (no_wrap : NoWrap (run T s ops)) :
    (run T s ops).log = (run T t ops).log ∧
      ((∃ answers s' t', (run T s ops).result = .ok (answers, s') ∧
          (run T t ops).result = .ok (answers, t') ∧ s'.SameLive t' ∧
          ∀ key, find T s' key = find T t' key) ∨
        ∃ reason, (run T s ops).result = .error reason ∧ (run T t ops).result = .error reason ∧
          reason ≠ .outOfFuel) := by
  obtain ⟨logs, results⟩ := run_simulates same ops no_wrap
  refine ⟨logs, ?_⟩
  cases left_result : (run T s ops).result with
  | error reason =>
      cases right_result : (run T t ops).result with
      | ok outcome => simp [left_result, right_result] at results
      | error other =>
          obtain rfl : reason = other := by
            simpa [left_result, right_result] using results
          refine Or.inr ⟨reason, rfl, rfl, ?_⟩
          rintro rfl
          exact (run_avoids T s ops).result_ne left_result
  | ok outcome =>
      cases right_result : (run T t ops).result with
      | error other => simp [left_result, right_result] at results
      | ok outcome' =>
          rw [left_result, right_result] at results
          obtain ⟨answers_eq, alike⟩ := results
          refine Or.inl ⟨outcome.1, outcome.2, outcome'.2, rfl, ?_, alike, fun key => ?_⟩
          · rw [answers_eq]
          · obtain ⟨res, left_eq, right_eq, -⟩ := find_same alike T key
            rw [left_eq, right_eq]

end Runs

/-- An empty table in which every dead cell still holds the key one. -/
def haunted : Hashmap (BitVec 64) (BitVec 64) :=
  { freshTable tempHash 32#32 with
    memory := [⟨fun _ => 0#16, fun _ => ⟨1#64, 99#64⟩⟩]
    allocated := rfl }

theorem freshTable_sameLive_haunted : (freshTable tempHash 32#32).SameLive haunted where
  toAddressable := (freshTable_spec tempHash (by decide)).1.toAddressable
  count_eq := rfl
  capacity_eq := rfl
  mask_eq := rfl
  blocks := List.Forall₂.cons ⟨rfl, fun _ => Or.inl rfl, fun _ live => (live rfl).elim⟩
    List.Forall₂.nil

theorem dead_cells_unobservable_haunted :
    ∃ answers s' t',
      (run tempHash (freshTable tempHash 32#32) [.find 1#64, .insert 33#64 5#64, .read 1#64,
        .erase 33#64, .size]).result = .ok (answers, s') ∧
      (run tempHash haunted [.find 1#64, .insert 33#64 5#64, .read 1#64, .erase 33#64,
        .size]).result = .ok (answers, t') ∧ s'.SameLive t' := by
  obtain ⟨-, ⟨answers, s', t', left, right, alike, -⟩ | ⟨reason, stopped, -⟩⟩ :=
    dead_cells_unobservable tempHash freshTable_sameLive_haunted
      [.find 1#64, .insert 33#64 5#64, .read 1#64, .erase 33#64, .size] (by decide +kernel)
  · exact ⟨answers, s', t', left, right, alike⟩
  · have answered : (run tempHash (freshTable tempHash 32#32) [.find 1#64, .insert 33#64 5#64,
        .read 1#64, .erase 33#64, .size]).result.map Prod.fst =
        .ok [.pointer none, .done, .value 0#64, .value 5#64, .size 1] := by
      decide +kernel
    rw [stopped] at answered
    cases answered

end RobinHoodHashmap
