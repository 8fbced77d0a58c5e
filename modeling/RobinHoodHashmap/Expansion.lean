import RobinHoodHashmap.Capacity

/-!
# Growth of reachable maps

What one `_resize` makes of a table, when an insertion calls it, how often, and that both insertion
paths end in the same table.
-/

namespace RobinHoodHashmap

open Hashmap

variable {κ υ : Type}

/-! ## One doubling -/

/-- Number of blocks the mask reaches. -/
def Hashmap.usableBlocks (s : Hashmap κ υ) : Nat := (s.bitMask.toNat + 1) / 32

theorem Hashmap.Addressable.usableBlocks_eq {s : Hashmap κ υ} (addressable : Addressable s) :
    s.usableBlocks = 2 ^ (s.exponent - 5) := by
  have power_pos := Nat.two_pow_pos s.exponent
  rw [usableBlocks, addressable.bitMask_eq, Nat.sub_add_cancel power_pos,
    two_pow_div_thirtyTwo addressable.exponent_ge]

/-- `s'` is `s` rehashed into twice the capacity. -/
structure RehashedInto (T : Traits κ υ) (s s' : Hashmap κ υ) : Prop where
  /-- The capacity doubles. -/
  capacity_eq : s'.capacity.toNat = 2 * s.capacity.toNat
  /-- The count stays. -/
  count_eq : s'.count = s.count
  /-- The number of usable blocks doubles. -/
  usableBlocks_eq : s'.usableBlocks = 2 * s.usableBlocks
  /-- Block `nth` holds, packed from slot zero and in their old slot order, the entries of old block
  `nth` modulo the old number of blocks whose new home block it is. -/
  blocks : ∀ nth < s'.usableBlocks, ∃ old, s.memory[nth % s.usableBlocks]? = some old ∧
    (pairsHomedAt T s'.bitMask nth old.entries).length ≤ 32 ∧
    s'.memory[nth]? = some (packedBlock T s'.bitMask (pairsHomedAt T s'.bitMask nth old.entries))
  /-- The blocks beyond are zero. -/
  beyond : ∀ (nth : Nat) (block : Block κ υ), s'.usableBlocks ≤ nth → s'.memory[nth]? = some block →
    block = Block.zero T
  /-- No entry is lost, duplicated or altered. -/
  entries_perm : s'.entries.Perm s.entries

section Doubling

variable {T : Traits κ υ} {s : Hashmap κ υ}

theorem pairsHomedAt_beyond (addressable : Addressable s) {nth : Nat} (beyond : s.usableBlocks ≤ nth)
    (pairs : List (KeyValuePair κ υ)) : pairsHomedAt T s.bitMask nth pairs = [] := by
  rw [pairsHomedAt, List.filter_eq_nil_iff]
  intro pair _ homed
  have home_eq : s.homeBlock T pair.key = nth := of_decide_eq_true homed
  have home_lt := blockUnder_lt addressable.exponent_ge (T.hasher pair.key)
  rw [← addressable.homeBlock_eq T, home_eq, ← addressable.usableBlocks_eq] at home_lt
  omega

theorem rehashedInto_rehashed (invariant : Invariant T s) (no_wrap : Doubles s.capacity) :
    RehashedInto T s (rehashed T s) := by
  have addressable : Addressable (rehashed T s) := (invariant_rehashed invariant no_wrap).toAddressable
  have exponent_eq : (rehashed T s).exponent = s.exponent + 1 :=
    exponent_doubled (T := T) invariant.capacity_ne_zero no_wrap
  have usable_eq : (rehashed T s).usableBlocks = 2 * s.usableBlocks := by
    have wide := invariant.exponent_ge
    rw [addressable.usableBlocks_eq, invariant.usableBlocks_eq, exponent_eq, ← Nat.pow_succ']
    congr 1
    omega
  have memory_eq : ∀ nth < (doubled T s).memory.length, (rehashed T s).memory[nth]? =
      some (packedBlock T (doubled T s).bitMask
        (pairsHomedAt T (doubled T s).bitMask nth s.entries)) :=
    fun nth inside => memory_packed inside s.entries s.count
  have length_eq : (rehashed T s).memory.length = (doubled T s).memory.length := by
    simp [rehashed, packed]
  refine ⟨capacity_doubled (T := T) no_wrap, rfl, usable_eq, ?_, ?_,
    entries_rehashed_perm invariant no_wrap⟩
  · intro nth inside
    have old_inside : nth % s.usableBlocks < s.memory.length := by
      rw [invariant.usableBlocks_eq]
      exact (Nat.mod_lt _ (Nat.two_pow_pos _)).trans_le invariant.blocks_le
    have old_eq := List.getElem?_eq_getElem old_inside
    have drawn := pairsHomedAt_doubled invariant no_wrap (by
      rw [← invariant.usableBlocks_eq]
      exact old_eq)
    refine ⟨_, old_eq, (List.length_filter_le _ _).trans (Block.entries_length_le _), ?_⟩
    rw [memory_eq nth, drawn]
    · rfl
    · rw [← length_eq]
      rw [addressable.usableBlocks_eq] at inside
      exact inside.trans_le addressable.blocks_le
  · intro nth block beyond block_eq
    have inside : nth < (doubled T s).memory.length := by
      rw [← length_eq]
      exact (List.getElem?_eq_some_iff.mp block_eq).1
    have empty : pairsHomedAt T (doubled T s).bitMask nth s.entries = [] :=
      pairsHomedAt_beyond addressable beyond s.entries
    rw [memory_eq nth inside, empty, packedBlock_nil, Option.some.injEq] at block_eq
    exact block_eq.symm

/-- One call of `_resize` on a table that satisfies the invariant. -/
theorem resize_rehashes [BEq κ] (invariant : Invariant T s)
    (no_wrap : 2 * s.capacity.toNat < 2 ^ 32) :
    ∃ s', (resize T s).result = .ok s' ∧ (resize T s).log = [s.capacity] ∧
      RehashedInto T s s' := by
  have resize_eq : resize T s = ⟨[s.capacity], .ok (rehashed T s)⟩ := by
    rw [resize, callDepth, resizeWithin_eq invariant no_wrap]
    rfl
  rw [resize_eq]
  exact ⟨rehashed T s, rfl, rfl, rehashedInto_rehashed invariant no_wrap⟩

end Doubling

theorem resize_rehashes_exercise :
    ∃ s s', s.count = 33#32 ∧ s.capacity = 96#32 ∧ (resize tempHash s).result = .ok s' ∧
      RehashedInto tempHash s s' := by
  obtain ⟨s, -, invariant, count_eq, capacity_eq, -⟩ := exercise_reached
  obtain ⟨s', resized, -, into⟩ := resize_rehashes invariant (by rw [capacity_eq]; decide)
  exact ⟨s, s', count_eq, capacity_eq, resized, into⟩

/-! ## Calls of `_insert_new` in a rehash -/

section Calls

variable [BEq κ] {T : Traits κ υ} {s : Hashmap κ υ}

/-- A function that inserts as `_insert_new` does wherever the target block has room packs one more
pair of a rehash. -/
theorem packs_of_agrees {fresh : Hashmap κ υ} (addressable : Addressable fresh) {depth : Nat}
    {insertNew' : Hashmap κ υ → κ → υ → Exec (Hashmap κ υ)}
    (agrees : ∀ table key value, HasRoom T table key →
      insertNew' table key value = insertNewWithin T (depth + 1) table key value)
    (pairs : List (KeyValuePair κ υ)) (count : BitVec 32) (key : κ) (value : υ)
    (room : (pairsHomedAt T fresh.bitMask (fresh.homeBlock T key) pairs).length < 32) :
    insertNew' (packed T fresh pairs count) key value =
      pure (packed T fresh (pairs ++ [⟨key, value⟩]) (count + 1)) := by
  rw [agrees _ _ _ (hasRoom_packed addressable pairs count room),
    insertNewWithin_packed addressable depth pairs count key value room]

/-- Every `_insert_new` the loops of `_resize` call finds a zero header in its target block: what the
callee would do with a full block has no influence on the rehash, and `_resize` is entered once. -/
theorem rehash_calls_have_room (invariant : Invariant T s)
    (no_wrap : 2 * s.capacity.toNat < 2 ^ 32) (depth : Nat) :
    ∃ filled, resizeWithin T (depth + 2) s =
        (Execution.emit s.capacity >>= fun _ => pure (filled.withCount s.count)) ∧
      (∀ insertNew' : Hashmap κ υ → κ → υ → Exec (Hashmap κ υ),
        (∀ table key value, HasRoom T table key →
          insertNew' table key value = insertNewWithin T (depth + 1) table key value) →
        (List.range (s.capacity >>> 5).toNat).foldlM (rehashBlock T insertNew' s) (doubled T s) =
          pure filled) ∧
      ∀ before pair after, s.livePairs = before ++ pair :: after →
        ∃ table, before.foldlM (fun s pair => insertNewWithin T (depth + 1) s pair.key pair.value)
            (doubled T s) = pure table ∧ HasRoom T table pair.key := by
  have addressable := addressable_doubled (T := T) invariant.toAddressable no_wrap
  have fits := pairsHomedAt_doubled_length_le invariant no_wrap
  refine ⟨packed T (doubled T s) s.entries (s.count + BitVec.ofNat 32 s.entries.length), ?_, ?_, ?_⟩
  · exact resizeWithin_eq invariant no_wrap depth
  · intro insertNew' agrees
    have fold := foldlM_packed (packs_of_agrees addressable agrees) s.entries [] s.count
      (by simpa using fits)
    rw [← doubled_eq_packed, List.nil_append] at fold
    rw [foldlM_rehashBlock, invariant.livePairs_eq, fold]
  · intro before pair after split
    rw [invariant.livePairs_eq] at split
    rw [split] at fits
    have fits_before : ∀ nth,
        (pairsHomedAt T (doubled T s).bitMask nth ([] ++ before)).length ≤ 32 := by
      intro nth
      have bound := fits nth
      rw [pairsHomedAt, List.filter_append, List.length_append] at bound
      exact (Nat.le_add_right _ _).trans bound
    have fold := foldlM_insertNewWithin_packed addressable depth before [] s.count fits_before
    rw [← doubled_eq_packed, List.nil_append] at fold
    exact ⟨_, fold, hasRoom_packed addressable before _ (room_of_fits fits)⟩

end Calls

theorem rehash_calls_have_room_exercise :
    ∃ s filled : Hashmap (BitVec 64) (BitVec 64), s.count = 33#32 ∧ s.capacity = 96#32 ∧
      resizeWithin tempHash 2 s =
      (Execution.emit s.capacity >>= fun _ => pure (filled.withCount s.count)) := by
  obtain ⟨s, -, invariant, count_eq, capacity_eq, -⟩ := exercise_reached
  obtain ⟨filled, resized, -, -⟩ :=
    rehash_calls_have_room invariant (by rw [capacity_eq]; decide) 0
  exact ⟨s, filled, count_eq, capacity_eq, resized⟩

/-! ## Insertion -/

section Insertion

variable [BEq κ] [LawfulBEq κ] {T : Traits κ υ} {s : Hashmap κ υ} {capacity : BitVec 32} {key : κ}

/-- How much an insertion into a reachable map grows it. -/
theorem insert_growth (reachable : Reachable T capacity s) (capacity_ge : 32 ≤ s.capacity.toNat)
    (key : κ) (value : υ) :
    (key ∈ s.keys → ∃ nth block slot, s.memory[nth]? = some block ∧ block.header slot ≠ 0#16 ∧
        (block.pair slot).key = key ∧
        insert T s key value = pure (s.setBlock nth (block.setValue slot value))) ∧
      (key ∉ s.keys → ∀ j, IsLeast {more | s.crowding T key more < 32} j →
        s.capacity.toNat * 2 ^ j < 2 ^ 32 →
          ∃ s', (insert T s key value).result = .ok s' ∧ (insert T s key value).log.length = j ∧
            s'.capacity.toNat = s.capacity.toNat * 2 ^ j ∧
            s'.count.toNat = s.count.toNat + 1) ∧
      (s.crowding T key 0 < 32 → (insert T s key value).log = []) := by
  have invariant := reachable.invariant (reachable.start_ge capacity_ge)
  have overwrites : key ∈ s.keys → ∃ nth block slot, s.memory[nth]? = some block ∧
      block.header slot ≠ 0#16 ∧ (block.pair slot).key = key ∧
        insert T s key value = pure (s.setBlock nth (block.setValue slot value)) := by
    intro stored
    obtain ⟨place, old, ⟨block, block_eq, occupied, pair_eq⟩, insert_eq⟩ :=
      insert_stored invariant stored value
    refine ⟨place.block, block, place.slot, block_eq, occupied, by rw [pair_eq], ?_⟩
    rw [insert_eq, writeValue_of_block block_eq]
  refine ⟨overwrites, ?_, ?_⟩
  · intro absent j least no_wrap
    obtain ⟨s', insert_eq, preserved, placed, capacity_eq⟩ :=
      insert_absent_spec invariant absent least no_wrap value
    rw [insert_eq]
    refine ⟨s', rfl, length_doublings _ _, capacity_eq, ?_⟩
    rw [preserved.count_eq, invariant.count_eq, placed.length_eq, List.length_cons]
  · intro room
    by_cases stored : key ∈ s.keys
    · obtain ⟨nth, block, slot, -, -, -, insert_eq⟩ := overwrites stored
      rw [insert_eq]
      rfl
    · have least : IsLeast {more | s.crowding T key more < 32} 0 := ⟨room, fun _ _ => Nat.zero_le _⟩
      rw [(insert_absent invariant stored least (by simpa using s.capacity.isLt) value).1]
      rfl

omit [BEq κ] [LawfulBEq κ] in
theorem exercise_crowded :
    ∃ s, Reachable tempHash 48#32 s ∧ Invariant tempHash s ∧ s.capacity = 96#32 ∧ 1#64 ∉ s.keys ∧
      IsLeast {more | s.crowding tempHash 1#64 more < 32} 1 := by
  obtain ⟨s, reachable, invariant, -, capacity_eq, represents⟩ := exercise_reached
  have exponent_eq : s.exponent = 6 := by
    rw [exponent, capacity_eq]
    decide +kernel
  have profile : s.crowding tempHash 1#64 0 = 32 ∧ s.crowding tempHash 1#64 1 = 31 := by
    rw [represents.crowding_eq invariant, represents.crowding_eq invariant, exponent_eq]
    decide +kernel
  have absent : 1#64 ∉ s.keys := by
    rw [← List.mem_toFinset, ← represents.keys_eq]
    decide +kernel
  refine ⟨s, reachable, invariant, capacity_eq, absent, ?_, fun more room => ?_⟩
  · change s.crowding tempHash 1#64 1 < 32
    omega
  · by_contra before
    obtain rfl : more = 0 := by omega
    have crowded : s.crowding tempHash 1#64 0 < 32 := room
    omega

theorem insert_growth_exercise :
    ∃ s, s.capacity = 96#32 ∧ ∃ s', (insert tempHash s 1#64 5#64).result = .ok s' ∧
      (insert tempHash s 1#64 5#64).log.length = 1 ∧ s'.capacity.toNat = 192 := by
  obtain ⟨s, reachable, -, capacity_eq, absent, least⟩ := exercise_crowded
  obtain ⟨s', returned, steps, grown, -⟩ :=
    (insert_growth reachable (by rw [capacity_eq]; decide) 1#64 5#64).2.1 absent 1 least
      (by rw [capacity_eq]; decide)
  exact ⟨s, capacity_eq, s', returned, steps, by rw [grown, capacity_eq]; rfl⟩

/-- Inserting an absent key through `insert` or through `_insert_new` is the same execution. -/
theorem insert_eq_insertNew (reachable : Reachable T capacity s)
    (capacity_ge : 32 ≤ s.capacity.toNat) (absent : key ∉ s.keys) (value : υ)
    (no_wrap : NoWrap (insert T s key value) ∨ NoWrap (insertNew T s key value)) :
    ∃ s', (insert T s key value).result = .ok s' ∧ (insertNew T s key value).result = .ok s' ∧
      (insert T s key value).log = (insertNew T s key value).log := by
  have invariant := reachable.invariant (reachable.start_ge capacity_ge)
  obtain ⟨n, least, bounded⟩ := exists_least_of_noWrap invariant absent no_wrap
  obtain ⟨inserted, inserted_new⟩ := insert_absent invariant absent least bounded value
  rw [inserted, inserted_new]
  exact ⟨_, rfl, rfl, rfl⟩

theorem insert_eq_insertNew_exercise :
    ∃ s s', s.capacity = 96#32 ∧ (insert tempHash s 1#64 5#64).result = .ok s' ∧
      (insertNew tempHash s 1#64 5#64).result = .ok s' := by
  obtain ⟨s, reachable, invariant, capacity_eq, absent, least⟩ := exercise_crowded
  have no_wrap : NoWrap (insert tempHash s 1#64 5#64) :=
    noWrap_insert invariant absent least (by rw [capacity_eq]; decide) 5#64
  obtain ⟨s', inserted, inserted_new, -⟩ :=
    insert_eq_insertNew reachable (by rw [capacity_eq]; decide) absent 5#64 (Or.inl no_wrap)
  exact ⟨s, s', capacity_eq, inserted, inserted_new⟩

end Insertion

end RobinHoodHashmap
