import RobinHoodHashmap.HighWater
import RobinHoodHashmap.Library

/-!
# Agreement of the two copies

`insert` of the library copy makes a header from the key, its `_insert_new` makes it from the hash.  A
key placed by `insert` itself is lost to every lookup unless its own bits are those of its hash.  A
rehash only calls `_insert_new`, and so does the end of a growth chain of odd length, so exactly the
other placements set the copies apart.
-/

namespace RobinHoodHashmap

open Hashmap

/-- Hash and key agree on the bits that go into a header. -/
def TagsAgree (hasher : BitVec 64 → BitVec 64) (key : BitVec 64) : Prop :=
  hasher key &&& 0x7fe#64 = key &&& 0x7fe#64

instance (hasher : BitVec 64 → BitVec 64) : DecidablePred (TagsAgree hasher) := fun key =>
  inferInstanceAs (Decidable (hasher key &&& 0x7fe#64 = key &&& 0x7fe#64))

/-- Adding a key does not misfile it: it is stored already, its bits are those of its hash, or its
growth chain has odd length and ends in `_insert_new`. -/
def FilesByHash (hasher : BitVec 64 → BitVec 64) (s : WordMap) (key : BitVec 64) : Prop :=
  key ∈ s.keys ∨ TagsAgree hasher key ∨
    ∃ n, Odd n ∧ IsLeast {more | s.crowding (wordTraits hasher) key more < 32} n

/-- A call misfiles no key. -/
def Op.FilesByHash (hasher : BitVec 64 → BitVec 64) (s : WordMap) :
    Op (BitVec 64) (BitVec 64) → Prop
  | insert key _ => RobinHoodHashmap.FilesByHash hasher s key
  | read key => RobinHoodHashmap.FilesByHash hasher s key
  | write key _ => RobinHoodHashmap.FilesByHash hasher s key
  | _ => True

/-- No call of a run misfiles a key, in the state it finds. -/
def FilesAlong (hasher : BitVec 64 → BitVec 64) (s : WordMap) :
    List (Op (BitVec 64) (BitVec 64)) → Prop
  | [] => True
  | op :: ops => op.FilesByHash hasher s ∧ ∀ answer s',
      (step (wordTraits hasher) s op).result = .ok (answer, s') → FilesAlong hasher s' ops

/-- A further set of keys raises the least level at which all sets seen fit, by an odd number. -/
def RisesOddly (hasher : BitVec 64 → BitVec 64) (capacity : BitVec 32)
    (seen : Set (Finset (BitVec 64))) (keys : Finset (BitVec 64)) : Prop :=
  ∃ low high, IsLeast (Levels.FitsAll (levelBlock (wordTraits hasher) capacity) 32 seen) low ∧
    IsLeast (Levels.FitsAll (levelBlock (wordTraits hasher) capacity) 32 (Insert.insert keys seen))
      high ∧ Odd (high - low)

/-- The same condition over the calls: `m` is the finite map before them, `seen` holds the sets of
keys stored so far in a map constructed with `capacity` slots. -/
def FilesOver (hasher : BitVec 64 → BitVec 64) (capacity : BitVec 32)
    (seen : Set (Finset (BitVec 64))) (m : Finmap fun _ : BitVec 64 => BitVec 64) :
    List (Op (BitVec 64) (BitVec 64)) → Prop
  | [] => True
  | op :: ops =>
      let m' := (reference (wordTraits hasher) m op).2
      (∀ key, op.inserts = some key →
        key ∈ m ∨ TagsAgree hasher key ∨ RisesOddly hasher capacity seen m'.keys) ∧
      FilesOver hasher capacity (Insert.insert m'.keys seen) m' ops

/-! ## The parts that differ -/

namespace Library

theorem logEntry_eq {index : BitVec 32} (nonzero : index ≠ 0#32) (inside : index.toNat < 256) :
    logEntry index = RobinHoodHashmap.logEntry index := by
  have table : ∀ n : Fin 256, n.val ≠ 0 →
      (logTable256.getD n.val 0).setWidth 32 = (logTable256.getD n.val 0).signExtend 32 := by
    decide +kernel
  refine table ⟨index.toNat, inside⟩ fun zero => nonzero ?_
  exact BitVec.eq_of_toNat_eq zero

/-- The unsigned table gives the logarithm of every operand but zero. -/
theorem log2_eq {v : BitVec 32} (nonzero : v ≠ 0#32) : log2 v = RobinHoodHashmap.log2 v := by
  simp only [log2, RobinHoodHashmap.log2]
  split_ifs with high top low
  · rw [logEntry_eq top (by bv_omega)]
  · rw [logEntry_eq high (by bv_omega)]
  · rw [logEntry_eq low (by bv_omega)]
  · rw [logEntry_eq nonzero (by bv_omega)]

variable {hasher : BitVec 64 → BitVec 64} {s : WordMap} {key value : BitVec 64}
  {block : Block (BitVec 64) (BitVec 64)} {depth : Nat}

theorem construct_eq (hasher : BitVec 64 → BitVec 64) {capacity : BitVec 32}
    (nonzero : capacity ≠ 0#32) :
    construct hasher capacity = pure (freshTable (wordTraits hasher) capacity) := by
  rw [← RobinHoodHashmap.construct_eq _ nonzero]
  simp only [construct, RobinHoodHashmap.construct, log2_eq nonzero]

theorem doubled_eq (nonzero : s.capacity <<< 1 ≠ 0#32) :
    doubled hasher s = RobinHoodHashmap.doubled (wordTraits hasher) s := by
  simp only [doubled, RobinHoodHashmap.doubled, log2_eq nonzero]

/-- A new pair in the first free slot of the home block of its key, under a header made from `bits`. -/
def filedUnder (hasher : BitVec 64 → BitVec 64) (s : WordMap) (bits key value : BitVec 64) :
    WordMap :=
  match s.memory[s.homeBlock (wordTraits hasher) key]? with
  | some block =>
      match block.freeSlot with
      | some slot =>
          (s.setBlock (s.homeBlock (wordTraits hasher) key) (block.fill slot
            (headerOf slot (home (hasher key) s.bitMask) bits) key value)).withCount (s.count + 1)
      | none => s
  | none => s

theorem filedUnder_of_free {slot : Fin 32} (bits : BitVec 64)
    (block_eq : s.memory[s.homeBlock (wordTraits hasher) key]? = some block)
    (free : block.freeSlot = some slot) : filedUnder hasher s bits key value =
      (s.setBlock (s.homeBlock (wordTraits hasher) key) (block.fill slot
        (headerOf slot (home (hasher key) s.bitMask) bits) key value)).withCount (s.count + 1) := by
  simp only [filedUnder, block_eq, free]

theorem filedUnder_hash :
    filedUnder hasher s (hasher key) key value = s.settled (wordTraits hasher) key value := by
  rw [filedUnder, settled]
  cases s.memory[s.homeBlock (wordTraits hasher) key]? with
  | none => rfl
  | some block => cases block.freeSlot <;> rfl

/-- A key whose bits are those of its hash is filed under its hash in either case. -/
theorem filedUnder_key (agree : TagsAgree hasher key) :
    filedUnder hasher s key key value = s.settled (wordTraits hasher) key value := by
  have header_eq : ∀ (slot : Fin 32) (home : BitVec 64),
      headerOf slot home key = headerOf slot home (hasher key) := by
    intro slot home
    rw [headerOf, headerOf, agree]
  rw [← filedUnder_hash]
  simp only [filedUnder, header_eq]

/-! ## One unfolding -/

theorem placeUnder_eq (block_eq : s.memory[s.homeBlock (wordTraits hasher) key]? = some block)
    {slot : Fin 32} (free : block.freeSlot = some slot) (bits : BitVec 64) :
    placeUnder s (s.homeBlock (wordTraits hasher) key) block (emptyIndex block)
        (homeIndex (home (hasher key) s.bitMask)) bits key value =
      pure (filedUnder hasher s bits key value) := by
  have value_eq := emptyIndex_toNat_of_free free
  have slot_eq : ∀ inside, (⟨(emptyIndex block).toNat, inside⟩ : Fin 32) = slot :=
    fun _ => Fin.ext value_eq
  rw [placeUnder, dif_pos (value_eq ▸ slot.isLt), slot_eq, slotHeader_eq_headerOf value_eq,
    filedUnder_of_free bits block_eq free]

theorem insertWithin_of_block
    (block_eq : s.memory[s.homeBlock (wordTraits hasher) key]? = some block) (depth : Nat) :
    insertWithin hasher (depth + 1) s key value =
      match block.lookup (wordTraits hasher) s.bitMask key with
      | some slot =>
          pure (s.setBlock (s.homeBlock (wordTraits hasher) key) (block.setValue slot value))
      | none =>
          match block.freeSlot with
          | some _ => pure (filedUnder hasher s key key value)
          | none =>
              resizeWithin hasher depth s >>= fun s => insertNewWithin hasher depth s key value := by
  rw [insertWithin]
  change (headerBlock _ s (s.homeBlock (wordTraits hasher) key) >>= _) = _
  rw [headerBlock_eq _ block_eq, pure_bind, searchBlock_eq, pure_bind]
  change (match block.lookup (wordTraits hasher) s.bitMask key with | some _ => _ | none => _) = _
  cases block.lookup (wordTraits hasher) s.bitMask key with
  | some slot => rfl
  | none =>
      cases free : block.freeSlot with
      | some slot =>
          simp only [if_neg (emptyIndex_ne_full free)]
          exact placeUnder_eq block_eq free key
      | none => simp only [if_pos ((emptyIndex_eq_full_iff block).mpr free)]

theorem insertNewWithin_of_block
    (block_eq : s.memory[s.homeBlock (wordTraits hasher) key]? = some block) (depth : Nat) :
    insertNewWithin hasher (depth + 1) s key value =
      match block.freeSlot with
      | some _ => pure (filedUnder hasher s (hasher key) key value)
      | none => resizeWithin hasher depth s >>= fun s => insertWithin hasher depth s key value := by
  rw [insertNewWithin]
  change (headerBlock _ s (s.homeBlock (wordTraits hasher) key) >>= _) = _
  rw [headerBlock_eq _ block_eq, pure_bind]
  cases free : block.freeSlot with
  | some slot =>
      simp only [if_neg (emptyIndex_ne_full free)]
      exact placeUnder_eq block_eq free (hasher key)
  | none => simp only [if_pos ((emptyIndex_eq_full_iff block).mpr free)]

/-! ## Growth -/

theorem insertNewWithin_of_hasRoom (room : HasRoom (wordTraits hasher) s key) (depth : Nat) :
    insertNewWithin hasher (depth + 1) s key value =
      RobinHoodHashmap.insertNewWithin (wordTraits hasher) (depth + 1) s key value := by
  obtain ⟨block, slot, block_eq, free⟩ := room
  have not_full : block.freeSlot ≠ none := fun full =>
    absurd free (by simpa using Fin.find?_eq_none_iff.mp full slot)
  obtain ⟨first, first_eq⟩ := Option.ne_none_iff_exists'.mp not_full
  rw [insertNewWithin_of_block block_eq, first_eq, filedUnder_hash,
    settled_of_free block_eq first_eq,
    RobinHoodHashmap.insertNewWithin_of_free block_eq depth value first_eq]

/-- The nested calls of `_resize` never reach `insert`, so both copies grow alike. -/
theorem resizeWithin_eq (invariant : Invariant (wordTraits hasher) s) (doubles : Doubles s.capacity)
    (depth : Nat) : resizeWithin hasher (depth + 2) s =
      Execution.emit s.capacity >>= fun _ => pure (rehashed (wordTraits hasher) s) := by
  have nonzero := shiftLeft_one_ne_zero invariant.capacity_ne_zero doubles
  have fold := foldlM_packed
    (packs_of_agrees (addressable_doubled (T := wordTraits hasher) invariant.toAddressable doubles)
      fun _ _ _ room => insertNewWithin_of_hasRoom room depth)
    s.entries [] s.count (by simpa using pairsHomedAt_doubled_length_le invariant doubles)
  rw [← doubled_eq_packed, List.nil_append] at fold
  rw [resizeWithin, log2_eq nonzero, if_pos (log2_lt nonzero), doubled_eq nonzero,
    foldlM_rehashBlock, invariant.livePairs_eq, fold]
  rfl

theorem insertWithin_of_room (invariant : Invariant (wordTraits hasher) s) (absent : key ∉ s.keys)
    (room : s.crowding (wordTraits hasher) key 0 < 32) (depth : Nat) :
    insertWithin hasher (depth + 1) s key value = pure (filedUnder hasher s key key value) ∧
      insertNewWithin hasher (depth + 1) s key value =
        pure (filedUnder hasher s (hasher key) key value) := by
  obtain ⟨block, block_eq⟩ := invariant.exists_home (wordTraits hasher) key
  have missing := (invariant.lookup_eq_none_iff block_eq).mpr absent
  obtain ⟨slot, free⟩ := exists_freeSlot_of_room invariant block_eq room
  rw [insertWithin_of_block block_eq, insertNewWithin_of_block block_eq, missing, free]
  exact ⟨rfl, rfl⟩

theorem insertWithin_of_doubles (invariant : Invariant (wordTraits hasher) s)
    (absent : key ∉ s.keys) (crowded : 32 ≤ s.crowding (wordTraits hasher) key 0)
    (doubles : Doubles s.capacity) (depth : Nat) (value : BitVec 64) :
    insertWithin hasher (depth + 3) s key value = (Execution.emit s.capacity >>= fun _ =>
        insertNewWithin hasher (depth + 2) (rehashed (wordTraits hasher) s) key value) ∧
      insertNewWithin hasher (depth + 3) s key value = (Execution.emit s.capacity >>= fun _ =>
        insertWithin hasher (depth + 2) (rehashed (wordTraits hasher) s) key value) := by
  obtain ⟨block, block_eq⟩ := invariant.exists_home (wordTraits hasher) key
  have missing := (invariant.lookup_eq_none_iff block_eq).mpr absent
  have full := (freeSlot_eq_none_iff_crowding invariant block_eq).mpr crowded
  rw [insertWithin_of_block block_eq, insertNewWithin_of_block block_eq, missing, full,
    resizeWithin_eq invariant doubles]
  simp only [bind_assoc, pure_bind, and_self]

/-- The growth chain of the library copy.  The entry points take turns, so the parity of the length
decides which of them places the key. -/
theorem growth_chain (n : Nat) : ∀ s : WordMap, Invariant (wordTraits hasher) s → key ∉ s.keys →
    s.capacity.toNat * 2 ^ n < 2 ^ 32 →
      (∀ more < n, 32 ≤ s.crowding (wordTraits hasher) key more) →
        s.crowding (wordTraits hasher) key n < 32 → ∀ depth,
          insertWithin hasher (depth + n + 3) s key value = ⟨doublings s.capacity n,
              .ok (filedUnder hasher ((rehashed (wordTraits hasher))^[n] s)
                (if Even n then key else hasher key) key value)⟩ ∧
            insertNewWithin hasher (depth + n + 3) s key value = ⟨doublings s.capacity n,
              .ok (filedUnder hasher ((rehashed (wordTraits hasher))^[n] s)
                (if Even n then hasher key else key) key value)⟩ := by
  induction n with
  | zero =>
      intro s invariant absent _ _ room depth
      exact insertWithin_of_room invariant absent room (depth + 2)
  | succ n induction =>
      intro s invariant absent no_wrap crowded room depth
      obtain ⟨doubles, rest⟩ := doubles_of_bounded no_wrap
      obtain ⟨preserved, still_absent, capacity_eq⟩ := rehashed_spec invariant absent doubles
      have shifted : ∀ more, (rehashed (wordTraits hasher) s).crowding (wordTraits hasher) key more =
          s.crowding (wordTraits hasher) key (more + 1) := crowding_rehashed invariant doubles
      have chain := induction (rehashed (wordTraits hasher) s) preserved still_absent
        (by rwa [capacity_eq])
        (fun more before => by
          rw [shifted]
          exact crowded _ (by omega))
        (by rwa [shifted]) depth
      have step := insertWithin_of_doubles invariant absent (crowded 0 (by omega)) doubles
        (depth + n + 1) value
      rw [chain.1, chain.2] at step
      simp only [Nat.even_add_one, ite_not]
      exact step

theorem insert_absent (invariant : Invariant (wordTraits hasher) s) (absent : key ∉ s.keys) {n : Nat}
    (least : IsLeast {more | s.crowding (wordTraits hasher) key more < 32} n)
    (no_wrap : s.capacity.toNat * 2 ^ n < 2 ^ 32) (value : BitVec 64) :
    insert hasher s key value = ⟨doublings s.capacity n,
      .ok (filedUnder hasher ((rehashed (wordTraits hasher))^[n] s)
        (if Even n then key else hasher key) key value)⟩ := by
  obtain ⟨depth, depth_eq⟩ := chain_fits invariant no_wrap
  rw [insert, depth_eq]
  exact (growth_chain n s invariant absent no_wrap (fun _ before => crowded_of_least least before)
    least.1 depth).1

/-! ## Insertion -/

theorem insert_eq (invariant : Invariant (wordTraits hasher) s) (files : FilesByHash hasher s key)
    (no_wrap : NoWrap (RobinHoodHashmap.insert (wordTraits hasher) s key value)) :
    insert hasher s key value = RobinHoodHashmap.insert (wordTraits hasher) s key value := by
  by_cases stored : key ∈ s.keys
  · obtain ⟨block, block_eq⟩ := invariant.exists_home (wordTraits hasher) key
    obtain ⟨slot, found, -⟩ := invariant.exists_lookup block_eq stored
    rw [insert, RobinHoodHashmap.insert, callDepth, insertWithin_of_block block_eq, found,
      RobinHoodHashmap.insertWithin_of_found block_eq 63 value found]
  · obtain ⟨n, least, bounded⟩ := exists_least_of_noWrap invariant stored (Or.inl no_wrap)
    have same : filedUnder hasher ((rehashed (wordTraits hasher))^[n] s)
        (if Even n then key else hasher key) key value =
          ((rehashed (wordTraits hasher))^[n] s).settled (wordTraits hasher) key value := by
      rcases files.resolve_left stored with agree | ⟨m, odd, least_odd⟩
      · split_ifs
        · exact filedUnder_key agree
        · exact filedUnder_hash
      · obtain rfl : n = m := least.unique least_odd
        rw [if_neg (Nat.not_even_iff_odd.mpr odd)]
        exact filedUnder_hash
    rw [insert_absent invariant stored least bounded,
      (RobinHoodHashmap.insert_absent invariant stored least bounded value).1, same]

theorem lookup_fill_of_ne {bitMask : BitVec 32} {slot : Fin 32} {header : BitVec 16}
    (missing : block.lookup (wordTraits hasher) bitMask key = none)
    (other : header ≠ headerOf slot (home (hasher key) bitMask) (hasher key)) :
    (block.fill slot header key value).lookup (wordTraits hasher) bitMask key = none := by
  rw [Block.lookup, Block.search, Fin.find?_eq_none_iff] at missing ⊢
  intro probed
  by_cases same : probed = slot
  · subst probed
    have miss : (header == headerOf slot (home (hasher key) bitMask) (hasher key)) = false :=
      beq_false_of_ne other
    simp only [Block.fill, Function.update_self]
    change (header == headerOf slot (home (hasher key) bitMask) (hasher key) && _) = false
    rw [miss, Bool.false_and]
  · simpa only [Block.fill, Function.update_of_ne same] using missing probed

theorem find_filedUnder (invariant : Invariant (wordTraits hasher) s) (absent : key ∉ s.keys)
    (room : s.crowding (wordTraits hasher) key 0 < 32) (disagree : ¬TagsAgree hasher key)
    (value : BitVec 64) : find hasher (filedUnder hasher s key key value) key = pure none := by
  obtain ⟨block, block_eq⟩ := invariant.exists_home (wordTraits hasher) key
  have missing := (invariant.lookup_eq_none_iff block_eq).mpr absent
  obtain ⟨slot, free⟩ := exists_freeSlot_of_room invariant block_eq room
  have header_ne : headerOf slot (home (hasher key) s.bitMask) key ≠
      headerOf slot (home (hasher key) s.bitMask) (hasher key) := by
    intro same
    exact disagree ((tag_eq_iff _ _).mpr ((headerOf_eq_iff _ _ _ _ _).mp same).2).symm
  have filed_eq : filedUnder hasher s key key value = _ := filedUnder_of_free key block_eq free
  have filled_eq : (filedUnder hasher s key key value).memory[
      (filedUnder hasher s key key value).homeBlock (wordTraits hasher) key]? =
        some (block.fill slot (headerOf slot (home (hasher key) s.bitMask) key) key value) := by
    obtain ⟨inside, -⟩ := List.getElem?_eq_some_iff.mp block_eq
    rw [filed_eq]
    exact List.getElem?_set_self inside
  have mask_eq : (filedUnder hasher s key key value).bitMask = s.bitMask := by
    rw [filed_eq, bitMask_withCount, bitMask_setBlock]
  rw [find, find_eq filled_eq, mask_eq, lookup_fill_of_ne missing header_ne]
  rfl

/-- A call that misfiles its key returns, and the key is not found after it. -/
theorem insert_misfiles (invariant : Invariant (wordTraits hasher) s)
    (misfiles : ¬FilesByHash hasher s key)
    (no_wrap : NoWrap (RobinHoodHashmap.insert (wordTraits hasher) s key value)) :
    ∃ t, (insert hasher s key value).result = .ok t ∧ find hasher t key = pure none := by
  obtain ⟨absent, disagree, no_odd⟩ : key ∉ s.keys ∧ ¬TagsAgree hasher key ∧
      ¬∃ n, Odd n ∧ IsLeast {more | s.crowding (wordTraits hasher) key more < 32} n := by
    simpa only [FilesByHash, not_or] using misfiles
  obtain ⟨n, least, bounded⟩ := exists_least_of_noWrap invariant absent (Or.inl no_wrap)
  have even : Even n := Nat.not_odd_iff_even.mp fun odd => no_odd ⟨n, odd, least⟩
  obtain ⟨grown, entries_perm, -, crowding_eq⟩ := grown_spec invariant n bounded
  rw [insert_absent invariant absent least bounded, if_pos even]
  refine ⟨_, rfl, find_filedUnder grown ?_ ?_ disagree value⟩
  · rwa [keys, (entries_perm.map KeyValuePair.key).mem_iff]
  · rw [crowding_eq]
    exact least.1

/-! ## Calls -/

theorem index_of_found {place : Place} (found : find hasher s key = pure (some place)) :
    index hasher s key = pure (place, s) := by
  rw [index, found, pure_bind]
  calc
    _ = pure s >>= fun s' => findAgain (wordTraits hasher) s' key := rfl
    _ = pure (place, s) := by rw [pure_bind, findAgain_of_found found]

theorem index_of_missing (missing : find hasher s key = pure none) :
    index hasher s key =
      insert hasher s key 0#64 >>= fun s' => findAgain (wordTraits hasher) s' key := by
  rw [index, missing, pure_bind]

theorem index_eq (invariant : Invariant (wordTraits hasher) s) (files : FilesByHash hasher s key)
    (no_wrap : NoWrap (RobinHoodHashmap.index (wordTraits hasher) s key)) :
    index hasher s key = RobinHoodHashmap.index (wordTraits hasher) s key := by
  rcases find_spec invariant key with ⟨place, value, found, -⟩ | ⟨missing, -⟩
  · rw [index_of_found found, RobinHoodHashmap.index_of_found found]
  · rw [RobinHoodHashmap.index_of_missing missing] at no_wrap ⊢
    rw [index_of_missing missing, ← insert_eq invariant files no_wrap.first]
    rfl

/-- `operator[]` follows the null pointer of its second lookup when its insertion misfiles the key. -/
theorem index_misfiles (invariant : Invariant (wordTraits hasher) s)
    (misfiles : ¬FilesByHash hasher s key)
    (no_wrap : NoWrap (RobinHoodHashmap.index (wordTraits hasher) s key)) :
    (index hasher s key).result = .error .nullDereference := by
  rcases find_spec invariant key with ⟨place, value, -, holds⟩ | ⟨missing, -⟩
  · exact (misfiles (Or.inl (mem_keys.mpr ⟨value, mem_entries_of_holds holds⟩))).elim
  · rw [RobinHoodHashmap.index_of_missing missing] at no_wrap
    obtain ⟨t, returned, lost⟩ := insert_misfiles invariant misfiles no_wrap.first
    rw [index_of_missing missing]
    refine (Execution.result_bind_of_ok returned _).trans ?_
    rw [findAgain_of_missing lost, Execution.result_fault]

theorem step_eq (invariant : Invariant (wordTraits hasher) s) {op : Op (BitVec 64) (BitVec 64)}
    (files : op.FilesByHash hasher s)
    (no_wrap : NoWrap (RobinHoodHashmap.step (wordTraits hasher) s op)) :
    step hasher s op = RobinHoodHashmap.step (wordTraits hasher) s op := by
  cases op with
  | insert key value =>
      rw [step, RobinHoodHashmap.step, insert_eq invariant files no_wrap.first]
  | find key => rfl
  | erase key => rfl
  | read key => rw [step, RobinHoodHashmap.step, index_eq invariant files no_wrap.first]
  | write key value => rw [step, RobinHoodHashmap.step, index_eq invariant files no_wrap.first]
  | clear => rfl
  | copy => rfl
  | size => rfl

/-- A call that misfiles a key is an insertion after which the key is not found, or stops. -/
theorem step_misfiles (invariant : Invariant (wordTraits hasher) s)
    {op : Op (BitVec 64) (BitVec 64)} (misfiles : ¬op.FilesByHash hasher s)
    (no_wrap : NoWrap (RobinHoodHashmap.step (wordTraits hasher) s op)) :
    (∃ key value t, op = .insert key value ∧ (step hasher s op).result = .ok (.done, t) ∧
        find hasher t key = pure none) ∨
      (step hasher s op).result = .error .nullDereference := by
  cases op with
  | insert key value =>
      obtain ⟨t, returned, lost⟩ := insert_misfiles invariant misfiles no_wrap.first
      exact Or.inl ⟨key, value, t, rfl, Execution.result_bind_of_ok returned _, lost⟩
  | read key =>
      exact Or.inr (Execution.result_bind_of_error
        (index_misfiles invariant misfiles no_wrap.first) _)
  | write key value =>
      exact Or.inr (Execution.result_bind_of_error
        (index_misfiles invariant misfiles no_wrap.first) _)
  | find key => exact (misfiles trivial).elim
  | erase key => exact (misfiles trivial).elim
  | clear => exact (misfiles trivial).elim
  | copy => exact (misfiles trivial).elim
  | size => exact (misfiles trivial).elim

/-- A key is held the way the calls after its insertion should find it. -/
structure Filed (hasher : BitVec 64 → BitVec 64) (s : WordMap) (key value : BitVec 64) : Prop where
  /-- `find` points at its value. -/
  found : step hasher s (.find key) = pure (.pointer (some value), s)
  /-- Inserting the key again overwrites its value and adds no entry. -/
  overwritten : ∀ again, ∃ s', insert hasher s key again = pure s' ∧ s'.count = s.count ∧
    Assigned s s' key again

theorem filed_of_stored (invariant : Invariant (wordTraits hasher) s)
    (member : ⟨key, value⟩ ∈ s.entries) : Filed hasher s key value := by
  have stored : key ∈ s.keys := mem_keys.mpr ⟨value, member⟩
  constructor
  · rcases find_spec invariant key with ⟨place, held, found, holds⟩ | ⟨-, absent⟩
    · obtain rfl : held = value := holds.value_eq invariant member
      rw [step, find, found, pure_bind]
      simp only [readValue_eq holds, pure_bind]
    · exact (absent stored).elim
  · intro again
    obtain ⟨block, block_eq⟩ := invariant.exists_home (wordTraits hasher) key
    obtain ⟨slot, found, -⟩ := invariant.exists_lookup block_eq stored
    have shipped_eq := RobinHoodHashmap.insertWithin_of_found block_eq 63 again found
    have inserted : insert hasher s key again = pure (s.setBlock
        (s.homeBlock (wordTraits hasher) key) (block.setValue slot again)) := by
      rw [insert, callDepth, insertWithin_of_block block_eq, found]
    have no_wrap : NoWrap (RobinHoodHashmap.insert (wordTraits hasher) s key again) := by
      rw [RobinHoodHashmap.insert, callDepth, shipped_eq]
      exact Execution.always_pure _ _
    obtain ⟨s', returned, -, assigned⟩ := insert_spec invariant no_wrap
    rw [RobinHoodHashmap.insert, callDepth, shipped_eq, Execution.result_pure, Except.ok.injEq]
      at returned
    subst s'
    exact ⟨_, inserted, rfl, assigned⟩

end Library

/-! ## Runs -/

/-- From one state both copies return the same answers to the calls, and what the library copy
inserts is filed as it should be. -/
structure RunsAlike (hasher : BitVec 64 → BitVec 64) (s : WordMap)
    (ops : List (Op (BitVec 64) (BitVec 64))) : Prop where
  /-- Both runs return, with the same answers. -/
  answers : ∃ answers t t', (run (wordTraits hasher) s ops).result = .ok (answers, t) ∧
    (Library.run hasher s ops).result = .ok (answers, t')
  /-- In the library copy a key is found after it was inserted, and inserting it again overwrites. -/
  filed : ∀ before key value after, ops = before ++ .insert key value :: after → ∀ answers t,
    (Library.run hasher s (before ++ [.insert key value])).result = .ok (answers, t) →
      Library.Filed hasher t key value

section Runs

variable {hasher : BitVec 64 → BitVec 64} {s : WordMap} {ops : List (Op (BitVec 64) (BitVec 64))}

theorem Library.run_cons (op : Op (BitVec 64) (BitVec 64)) (ops : List (Op (BitVec 64) (BitVec 64))) :
    run hasher s (op :: ops) = step hasher s op >>= fun stepped =>
      run hasher stepped.2 ops >>= fun rest => pure (stepped.1 :: rest.1, rest.2) := rfl

theorem Library.run_cons_eq_ok {op : Op (BitVec 64) (BitVec 64)} {answers : List (Answer (BitVec 64))}
    {t : WordMap} (ran : (run hasher s (op :: ops)).result = .ok (answers, t)) :
    ∃ answer s' later, (step hasher s op).result = .ok (answer, s') ∧
      (run hasher s' ops).result = .ok (later, t) ∧ answers = answer :: later :=
  Execution.result_cons_eq_ok ran

theorem Library.run_eq (invariant : Invariant (wordTraits hasher) s)
    (files : FilesAlong hasher s ops)
    (no_wrap : NoWrap (RobinHoodHashmap.run (wordTraits hasher) s ops)) :
    run hasher s ops = RobinHoodHashmap.run (wordTraits hasher) s ops := by
  induction ops generalizing s with
  | nil => rfl
  | cons op ops induction =>
      obtain ⟨first, next⟩ := no_wrap.run_cons
      obtain ⟨answer, s', stepped, kept⟩ := step_returns invariant first
      have rest := induction kept (files.2 answer s' stepped) (next answer s' stepped)
      rw [run_cons, RobinHoodHashmap.run_cons, step_eq invariant files.1 first]
      exact Execution.bind_congr_of_ok stepped (by rw [rest])

theorem Library.filed_along (before : List (Op (BitVec 64) (BitVec 64))) {key value : BitVec 64}
    {after : List (Op (BitVec 64) (BitVec 64))} (invariant : Invariant (wordTraits hasher) s)
    (files : FilesAlong hasher s (before ++ .insert key value :: after))
    (no_wrap : NoWrap (RobinHoodHashmap.run (wordTraits hasher) s
      (before ++ .insert key value :: after)))
    {answers : List (Answer (BitVec 64))} {t : WordMap}
    (ran : (run hasher s (before ++ [.insert key value])).result = .ok (answers, t)) :
    Filed hasher t key value := by
  induction before generalizing s answers with
  | nil =>
      have first := no_wrap.run_cons.1
      obtain ⟨answer, s', later, stepped, returned, -⟩ := run_cons_eq_ok ran
      obtain ⟨inserted, result_eq, preserved, assigned⟩ := insert_spec invariant first.first
      rw [step_eq invariant files.1 first, RobinHoodHashmap.step,
        Execution.result_bind_of_ok result_eq] at stepped
      obtain ⟨-, rfl⟩ : Answer.done = answer ∧ inserted = s' := by
        simpa using stepped
      obtain ⟨-, rfl⟩ : [] = later ∧ inserted = t := by
        simpa [run] using returned
      exact filed_of_stored preserved (assigned.mem_iff.mpr List.mem_cons_self)
  | cons op before induction =>
      obtain ⟨first, next⟩ := no_wrap.run_cons
      obtain ⟨answer, s', later, stepped, returned, -⟩ := run_cons_eq_ok ran
      rw [step_eq invariant files.1 first] at stepped
      exact induction (step_invariant invariant first stepped) (files.2 answer s' stepped)
        (next answer s' stepped) returned

/-- A first call that misfiles its key shows: it stops, or the next `find` of the key fails. -/
theorem RunsAlike.files_first {op : Op (BitVec 64) (BitVec 64)}
    (alike : RunsAlike hasher s (op :: ops)) (invariant : Invariant (wordTraits hasher) s)
    (no_wrap : NoWrap (step (wordTraits hasher) s op)) : op.FilesByHash hasher s := by
  obtain ⟨answers, t, t', -, library_ran⟩ := alike.answers
  obtain ⟨answer, s', later, stepped, -, -⟩ := Library.run_cons_eq_ok library_ran
  by_contra misfiles
  rcases Library.step_misfiles invariant misfiles no_wrap with
    ⟨key, value, lost_in, rfl, returned, lost⟩ | stops
  · have filed := alike.filed [] key value ops rfl [.done] lost_in (by
      rw [List.nil_append, Library.run_cons, Execution.result_bind_of_ok returned]
      rfl)
    have found := filed.found
    rw [Library.step, lost, pure_bind] at found
    have results := congrArg Execution.result found
    simp at results
  · rw [stops] at stepped
    simp at stepped

theorem RunsAlike.tail {op : Op (BitVec 64) (BitVec 64)} {answer : Answer (BitVec 64)} {s' : WordMap}
    (alike : RunsAlike hasher s (op :: ops))
    (same : Library.step hasher s op = step (wordTraits hasher) s op)
    (stepped : (step (wordTraits hasher) s op).result = .ok (answer, s')) :
    RunsAlike hasher s' ops := by
  obtain ⟨answers, t, t', shipped_ran, library_ran⟩ := alike.answers
  obtain ⟨head, middle, later, shipped_stepped, shipped_rest, rfl⟩ := run_cons_eq_ok shipped_ran
  obtain ⟨head', middle', later', library_stepped, library_rest, answers_eq⟩ :=
    Library.run_cons_eq_ok library_ran
  obtain ⟨rfl, rfl⟩ : answer = head ∧ s' = middle := by
    simpa [stepped] using shipped_stepped
  obtain ⟨rfl, rfl⟩ : answer = head' ∧ s' = middle' := by
    simpa [same, stepped] using library_stepped
  obtain rfl : later = later' := List.tail_eq_of_cons_eq answers_eq
  refine ⟨⟨later, t, t', shipped_rest, library_rest⟩, ?_⟩
  intro before key value after split earlier final ran
  refine alike.filed (op :: before) key value after (by rw [split]; rfl) (answer :: earlier) final ?_
  rw [List.cons_append, Library.run_cons, same, Execution.result_bind_of_ok stepped,
    Execution.result_bind_of_ok ran]
  rfl

/-- Runs that are alike misfile no key.  The induction is on the calls. -/
theorem filesAlong_of_runsAlike (invariant : Invariant (wordTraits hasher) s)
    (no_wrap : NoWrap (run (wordTraits hasher) s ops)) (alike : RunsAlike hasher s ops) :
    FilesAlong hasher s ops := by
  induction ops generalizing s with
  | nil => trivial
  | cons op ops induction =>
      obtain ⟨first, next⟩ := no_wrap.run_cons
      have files := alike.files_first invariant first
      refine ⟨files, fun answer s' stepped => ?_⟩
      have same := Library.step_eq invariant files first
      exact induction (step_invariant invariant first stepped) (next answer s' stepped)
        (alike.tail same stepped)

theorem filesAlong_of_tagsAgree (agree : ∀ key, TagsAgree hasher key) (s : WordMap)
    (ops : List (Op (BitVec 64) (BitVec 64))) : FilesAlong hasher s ops := by
  induction ops generalizing s with
  | nil => trivial
  | cons op ops induction =>
      refine ⟨?_, fun _ s' _ => induction s'⟩
      cases op with
      | insert key value => exact Or.inr (Or.inl (agree key))
      | read key => exact Or.inr (Or.inl (agree key))
      | write key value => exact Or.inr (Or.inl (agree key))
      | find key => trivial
      | erase key => trivial
      | clear => trivial
      | copy => trivial
      | size => trivial

theorem Op.filesByHash_iff (op : Op (BitVec 64) (BitVec 64)) : op.FilesByHash hasher s ↔
    ∀ key, op.inserts = some key → RobinHoodHashmap.FilesByHash hasher s key := by
  cases op with
  | insert own _ | read own | write own _ =>
      constructor
      · rintro files _ ⟨⟩
        exact files
      · exact fun all => all own rfl
  | find _ | erase _ | clear | copy | size => simp [Op.FilesByHash, Op.inserts]

variable {capacity : BitVec 32} {seen : Set (Finset (BitVec 64))} {level : Nat}
  {m : Finmap fun _ : BitVec 64 => BitVec 64}

/-- The growth chain of a call is as long as the level rises. -/
theorem Tracked.filesByHash_iff (tracked : Tracked (wordTraits hasher) capacity seen s level)
    (represents : Represents s m) (capacity_ge : 32 ≤ capacity.toNat)
    {op : Op (BitVec 64) (BitVec 64)} {key : BitVec 64} (inserts : op.inserts = some key)
    (no_wrap : NoWrap (RobinHoodHashmap.step (wordTraits hasher) s op)) :
    FilesByHash hasher s key ↔ key ∈ m ∨ TagsAgree hasher key ∨
      RisesOddly hasher capacity seen (reference (wordTraits hasher) m op).2.keys := by
  have same_keys : key ∈ s.keys ↔ key ∈ m := by
    rw [← List.mem_toFinset, ← represents.keys_eq, Finmap.mem_keys]
  rw [FilesByHash, same_keys]
  by_cases stored : key ∈ s.keys
  · exact iff_of_true (Or.inl (same_keys.mp stored)) (Or.inl (same_keys.mp stored))
  · have fresh : key ∉ s.keys.toFinset := by
      rwa [List.mem_toFinset]
    obtain ⟨room_at, bounded, room⟩ :=
      ((noWrap_step_iff tracked.invariant op).mp no_wrap key inserts).resolve_left stored
    obtain ⟨n, least, -⟩ := exists_least_of_room bounded room
    have crowd_least := least
    simp only [tracked.crowding_eq (by omega)] at crowd_least
    have raised := Levels.isLeast_fitsAll_insert (refining_levelBlock _ capacity_ge)
      tracked.current fresh tracked.least crowd_least
    rw [represents.keys_reference inserts fresh]
    refine or_congr Iff.rfl (or_congr Iff.rfl ⟨?_, ?_⟩)
    · rintro ⟨length, odd, least_length⟩
      obtain rfl : n = length := least.unique least_length
      refine ⟨level, level + n, tracked.least, raised, ?_⟩
      rwa [Nat.add_sub_cancel_left]
    · rintro ⟨low, high, least_low, least_high, odd⟩
      obtain rfl : level = low := tracked.least.unique least_low
      obtain rfl : level + n = high := raised.unique least_high
      rw [Nat.add_sub_cancel_left] at odd
      exact ⟨n, odd, least⟩

theorem Tracked.filesAlong_iff (tracked : Tracked (wordTraits hasher) capacity seen s level)
    (represents : Represents s m) (capacity_ge : 32 ≤ capacity.toNat)
    (no_wrap : NoWrap (RobinHoodHashmap.run (wordTraits hasher) s ops)) :
    FilesAlong hasher s ops ↔ FilesOver hasher capacity seen m ops := by
  induction ops generalizing s m seen level with
  | nil => exact Iff.rfl
  | cons op ops induction =>
      obtain ⟨first, next⟩ := no_wrap.run_cons
      obtain ⟨s', more, step_eq, -, tracked', represents'⟩ :=
        tracked.step represents capacity_ge op first
      have returned : (RobinHoodHashmap.step (wordTraits hasher) s op).result =
          .ok ((reference (wordTraits hasher) m op).1, s') := by
        rw [step_eq]
      have rest := induction tracked' represents' (next _ _ returned)
      refine and_congr ?_ ?_
      · rw [Op.filesByHash_iff]
        exact forall₂_congr fun key inserts =>
          tracked.filesByHash_iff represents capacity_ge inserts first
      · rw [← rest]
        constructor
        · exact fun along => along _ _ returned
        · intro along answer after stepped
          obtain ⟨-, rfl⟩ : (reference (wordTraits hasher) m op).1 = answer ∧ s' = after := by
            simpa [returned] using stepped
          exact along

/-- Both copies construct the same map, and a run from it that does not overflow is alike in both
exactly when none of its calls misfiles a key, which the calls, the hash and the first capacity
decide. -/
theorem runsAlike_iff (hasher : BitVec 64 → BitVec 64) {capacity : BitVec 32}
    (capacity_ge : 32 ≤ capacity.toNat) (ops : List (Op (BitVec 64) (BitVec 64)))
    (no_wrap : NoWrap (session (wordTraits hasher) capacity ops)) :
    ∃ s, (construct (wordTraits hasher) capacity).result = .ok s ∧
      (Library.construct hasher capacity).result = .ok s ∧
      (RunsAlike hasher s ops ↔ FilesAlong hasher s ops) ∧
      (FilesAlong hasher s ops ↔ FilesOver hasher capacity {∅} ∅ ops) := by
  have nonzero := ne_zero_of_block capacity_ge
  obtain ⟨invariant, entries_nil⟩ := freshTable_spec (wordTraits hasher) capacity_ge
  have represents := Represents.of_entries_nil entries_nil
  rw [session_eq _ nonzero] at no_wrap
  refine ⟨freshTable (wordTraits hasher) capacity, ?_, ?_,
    ⟨filesAlong_of_runsAlike invariant no_wrap, fun files => ⟨?_, ?_⟩⟩,
    (tracked_freshTable _ capacity_ge).filesAlong_iff represents capacity_ge no_wrap⟩
  · rw [construct_eq _ nonzero, Execution.result_pure]
  · rw [Library.construct_eq _ nonzero, Execution.result_pure]
  · obtain ⟨t, ran, -⟩ := run_refines invariant represents ops no_wrap
    exact ⟨_, t, t, ran, by rw [Library.run_eq invariant files no_wrap, ran]⟩
  · intro before key value after split answers t ran
    subst split
    exact Library.filed_along before invariant files no_wrap ran

/-- A hash that differs from its key in bit zero only. -/
def flipLow (key : BitVec 64) : BitVec 64 := key ^^^ 1#64

/-- Calls on two keys. -/
def twoKeys : List (Op (BitVec 64) (BitVec 64)) :=
  [.insert 2#64 7#64, .find 2#64, .insert 2#64 8#64, .read 66#64, .erase 2#64, .find 2#64]

theorem runsAlike_iff_flipLow :
    ∃ s, (construct (wordTraits flipLow) 32#32).result = .ok s ∧
      (Library.construct flipLow 32#32).result = .ok s ∧ RunsAlike flipLow s twoKeys := by
  have agree : ∀ key, TagsAgree flipLow key := by
    intro key
    refine (tag_eq_iff _ _).mpr fun bit low high => ?_
    have nonzero : bit ≠ 0 := by omega
    simp [flipLow, BitVec.getLsbD_xor, nonzero]
  obtain ⟨s, constructed, library_constructed, alike_iff, -⟩ :=
    runsAlike_iff flipLow (show 32 ≤ (32#32).toNat by decide) twoKeys (by decide +kernel)
  exact ⟨s, constructed, library_constructed,
    alike_iff.mpr (filesAlong_of_tagsAgree agree s twoKeys)⟩

/-- A hash that moves every bit of its key. -/
def shifted (key : BitVec 64) : BitVec 64 := key <<< 1

/-- Insert a key and look it up. -/
def insertFind : List (Op (BitVec 64) (BitVec 64)) := [.insert 2#64 7#64, .find 2#64]

/-- Under a hash that shifts its key the library copy does not find the key it has just inserted, and
inserting the key again adds a second entry. -/
theorem not_runsAlike_shifted :
    NoWrap (session (wordTraits shifted) 32#32 insertFind) ∧
      (session (wordTraits shifted) 32#32 insertFind).result.map Prod.fst =
        .ok [.done, .pointer (some 7#64)] ∧
      (Library.session shifted 32#32 insertFind).result.map Prod.fst =
        .ok [.done, .pointer none] ∧
      (Library.session shifted 32#32 [.insert 2#64 7#64, .insert 2#64 8#64]).result.map
        (fun outcome => outcome.2.count) = .ok 2#32 ∧
      ∃ s, (construct (wordTraits shifted) 32#32).result = .ok s ∧
        (Library.construct shifted 32#32).result = .ok s ∧ ¬RunsAlike shifted s insertFind := by
  have shipped : (session (wordTraits shifted) 32#32 insertFind).result.map Prod.fst =
      .ok [.done, .pointer (some 7#64)] := by
    decide +kernel
  have library : (Library.session shifted 32#32 insertFind).result.map Prod.fst =
      .ok [.done, .pointer none] := by
    decide +kernel
  refine ⟨by decide +kernel, shipped, library, by decide +kernel,
    freshTable (wordTraits shifted) 32#32, ?_, ?_, fun alike => ?_⟩
  · rw [construct_eq _ (by decide), Execution.result_pure]
  · rw [Library.construct_eq _ (by decide), Execution.result_pure]
  · obtain ⟨answers, t, t', ran, library_ran⟩ := alike.answers
    rw [session_eq _ (by decide), ran] at shipped
    rw [Library.session, Library.construct_eq _ (by decide), pure_bind, library_ran] at library
    have same : (.ok [.done, .pointer (some 7#64)] : Except Fault (List (Answer (BitVec 64)))) =
        .ok [.done, .pointer none] := shipped.symm.trans library
    simp at same

end Runs

end RobinHoodHashmap
