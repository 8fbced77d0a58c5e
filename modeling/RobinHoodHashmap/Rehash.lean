import RobinHoodHashmap.Invariant

/-!
# Rehashing

`_resize` inserts the entries of the old table one by one into a zeroed table of twice the
capacity.  At every point of the rehash the new table is the one that holds the entries moved so
far, packed block by block in arrival order.  Each new block draws from a single old block, so it
never fills up and the nested growth of `_insert_new` is not reached.
-/

namespace RobinHoodHashmap

open Selection Hashmap

variable {κ υ : Type}

/-! ## Packed tables -/

/-- The block whose first slots hold the given pairs in order. -/
def packedBlock (T : Traits κ υ) (bitMask : BitVec 32) (pairs : List (KeyValuePair κ υ)) :
    Block κ υ where
  header slot :=
    match pairs[slot.val]? with
    | some pair => headerOf slot (home (T.hasher pair.key) bitMask) (T.hasher pair.key)
    | none => 0#16
  pair slot := pairs[slot.val]?.getD T.zeroPair

/-- The pairs whose home block under a mask is `nth`, in their given order. -/
def pairsHomedAt (T : Traits κ υ) (bitMask : BitVec 32) (nth : Nat)
    (pairs : List (KeyValuePair κ υ)) : List (KeyValuePair κ υ) :=
  pairs.filter fun pair => (nthHeaderBlock (home (T.hasher pair.key) bitMask)).toNat = nth

/-- The table with the geometry of `fresh` that holds pairs packed in arrival order. -/
def packed (T : Traits κ υ) (fresh : Hashmap κ υ) (pairs : List (KeyValuePair κ υ))
    (count : BitVec 32) : Hashmap κ υ :=
  { fresh with
    count
    memory := (List.range fresh.memory.length).map fun nth =>
      packedBlock T fresh.bitMask (pairsHomedAt T fresh.bitMask nth pairs)
    allocated := by simpa using fresh.allocated }

section Packed

variable {T : Traits κ υ} {bitMask : BitVec 32} {pairs : List (KeyValuePair κ υ)}

theorem packedBlock_header_ne_zero_iff (slot : Fin 32) :
    (packedBlock T bitMask pairs).header slot ≠ 0#16 ↔ slot.val < pairs.length := by
  cases found : pairs[slot.val]? with
  | none =>
      have outside := List.getElem?_eq_none_iff.mp found
      simp [packedBlock, outside]
  | some pair =>
      obtain ⟨inside, -⟩ := List.getElem?_eq_some_iff.mp found
      simp [packedBlock, inside, headerOf_ne_zero]

theorem packedBlock_nil : packedBlock T bitMask [] = Block.zero T := rfl

theorem entries_packedBlock (fits : pairs.length ≤ 32) :
    (packedBlock T bitMask pairs).entries = pairs := by
  rw [Block.entries, Block.pairsWhere, map_filter_eq_flatMap]
  conv_rhs => rw [← flatMap_finRange_getElem? pairs fits]
  apply List.flatMap_congr
  intro slot _
  cases found : pairs[slot.val]? with
  | none => simp [packedBlock, found]
  | some pair => simp [packedBlock, found, headerOf_ne_zero]

theorem freeSlot_packedBlock (room : pairs.length < 32) :
    (packedBlock T bitMask pairs).freeSlot = some ⟨pairs.length, room⟩ := by
  have zero_iff : ∀ slot : Fin 32,
      (packedBlock T bitMask pairs).header slot = 0#16 ↔ pairs.length ≤ slot.val := by
    intro slot
    rw [← not_iff_not, ← Ne, packedBlock_header_ne_zero_iff, not_le]
  refine Fin.find?_eq_some_iff.mpr ⟨by simp [zero_iff], fun earlier before => ?_⟩
  simpa [zero_iff, Fin.lt_def] using before

/-- A cell for every slot, by the pair in it, when one more pair is added. -/
theorem update_packed {α : Type} (cell : Fin 32 → Option (KeyValuePair κ υ) → α)
    (room : pairs.length < 32) (pair : KeyValuePair κ υ) :
    Function.update (fun slot : Fin 32 => cell slot pairs[slot.val]?) ⟨pairs.length, room⟩
        (cell ⟨pairs.length, room⟩ (some pair)) =
      fun slot => cell slot (pairs ++ [pair])[slot.val]? := by
  funext slot
  by_cases same : slot = ⟨pairs.length, room⟩
  · subst slot
    simp
  · have distinct : slot.val ≠ pairs.length := fun eq => same (Fin.ext eq)
    rw [Function.update_of_ne same, List.getElem?_append]
    split_ifs with inside
    · rfl
    · rw [List.getElem?_eq_none_iff.mpr (by omega), List.getElem?_eq_none_iff.mpr (by simp; omega)]

theorem fill_packedBlock (room : pairs.length < 32) (key : κ) (value : υ) :
    (packedBlock T bitMask pairs).fill ⟨pairs.length, room⟩
        (headerOf ⟨pairs.length, room⟩ (home (T.hasher key) bitMask) (T.hasher key)) key value =
      packedBlock T bitMask (pairs ++ [⟨key, value⟩]) := by
  apply Block.ext
  · exact update_packed (fun slot found => match found with
      | some pair => headerOf slot (home (T.hasher pair.key) bitMask) (T.hasher pair.key)
      | none => 0#16) room ⟨key, value⟩
  · exact update_packed (fun _ found => found.getD T.zeroPair) room ⟨key, value⟩

end Packed

/-- The block a new key is written to has a slot whose header is zero. -/
def HasRoom (T : Traits κ υ) (s : Hashmap κ υ) (key : κ) : Prop :=
  ∃ block slot, s.memory[s.homeBlock T key]? = some block ∧ block.header slot = 0#16

section PackedTable

variable {T : Traits κ υ} {fresh : Hashmap κ υ}

theorem memory_packed {nth : Nat} (inside : nth < fresh.memory.length)
    (pairs : List (KeyValuePair κ υ)) (count : BitVec 32) :
    (packed T fresh pairs count).memory[nth]? =
      some (packedBlock T fresh.bitMask (pairsHomedAt T fresh.bitMask nth pairs)) := by
  simp [packed, inside]

theorem addressable_packed (addressable : Addressable fresh) (pairs : List (KeyValuePair κ υ))
    (count : BitVec 32) : Addressable (packed T fresh pairs count) :=
  ⟨addressable.capacity_ge, addressable.bitMask_eq⟩

theorem place_packed (pairs : List (KeyValuePair κ υ)) (count : BitVec 32) (key : κ) (value : υ)
    (room : (pairsHomedAt T fresh.bitMask (fresh.homeBlock T key) pairs).length < 32) :
    (packed T fresh pairs count).place T (fresh.homeBlock T key)
        (packedBlock T fresh.bitMask
          (pairsHomedAt T fresh.bitMask (fresh.homeBlock T key) pairs))
        ⟨_, room⟩ key value =
      packed T fresh (pairs ++ [⟨key, value⟩]) (count + 1) := by
  have mask_eq : (packed T fresh pairs count).bitMask = fresh.bitMask := rfl
  rw [Hashmap.place, mask_eq, fill_packedBlock room]
  apply Hashmap.ext <;> try rfl
  apply List.ext_getElem
  · simp [packed]
  · intro nth _ _
    simp only [memory_withCount, memory_setBlock, packed, List.getElem_set, List.getElem_map,
      List.getElem_range]
    split_ifs with same
    · subst nth
      congr 1
      simp [pairsHomedAt, homeBlock]
    · congr 1
      have elsewhere : ¬(nthHeaderBlock (home (T.hasher key) fresh.bitMask)).toNat = nth := same
      simp [pairsHomedAt, elsewhere]

theorem room_of_fits {pairs items : List (KeyValuePair κ υ)} {item : KeyValuePair κ υ}
    (fits : ∀ nth, (pairsHomedAt T fresh.bitMask nth (pairs ++ item :: items)).length ≤ 32) :
    (pairsHomedAt T fresh.bitMask (fresh.homeBlock T item.key) pairs).length < 32 := by
  have bound := fits (fresh.homeBlock T item.key)
  simp only [pairsHomedAt, homeBlock, List.filter_append, List.filter_cons, decide_true,
    if_true, List.length_append, List.length_cons] at bound ⊢
  omega

theorem hasRoom_packed (addressable : Addressable fresh) (pairs : List (KeyValuePair κ υ))
    (count : BitVec 32) {key : κ}
    (room : (pairsHomedAt T fresh.bitMask (fresh.homeBlock T key) pairs).length < 32) :
    HasRoom T (packed T fresh pairs count) key :=
  ⟨_, _, memory_packed (addressable.homeBlock_lt T key) pairs count,
    Block.header_of_freeSlot (freeSlot_packedBlock room)⟩

/-- One `_insert_new` of the rehash: its target block has a free slot and the pair is packed. -/
theorem insertNewWithin_packed [BEq κ] (addressable : Addressable fresh) (depth : Nat)
    (pairs : List (KeyValuePair κ υ)) (count : BitVec 32) (key : κ) (value : υ)
    (room : (pairsHomedAt T fresh.bitMask (fresh.homeBlock T key) pairs).length < 32) :
    insertNewWithin T (depth + 1) (packed T fresh pairs count) key value =
      pure (packed T fresh (pairs ++ [⟨key, value⟩]) (count + 1)) := by
  have block_eq := memory_packed (T := T) (addressable.homeBlock_lt T key) pairs count
  rw [← place_packed pairs count key value room]
  exact insertNewWithin_of_free block_eq depth value (freeSlot_packedBlock room)

/-- A fold over a list of pairs, no block of which exceeds thirty-two, by a function that packs a
pair as long as its block has room. -/
theorem foldlM_packed {insertNew : Hashmap κ υ → κ → υ → Exec (Hashmap κ υ)}
    (packs : ∀ (pairs : List (KeyValuePair κ υ)) (count : BitVec 32) (key : κ) (value : υ),
      (pairsHomedAt T fresh.bitMask (fresh.homeBlock T key) pairs).length < 32 →
        insertNew (packed T fresh pairs count) key value =
          pure (packed T fresh (pairs ++ [⟨key, value⟩]) (count + 1)))
    (items : List (KeyValuePair κ υ)) (pairs : List (KeyValuePair κ υ)) (count : BitVec 32)
    (fits : ∀ nth, (pairsHomedAt T fresh.bitMask nth (pairs ++ items)).length ≤ 32) :
    items.foldlM (fun s pair => insertNew s pair.key pair.value) (packed T fresh pairs count) =
      pure (packed T fresh (pairs ++ items) (count + BitVec.ofNat 32 items.length)) := by
  induction items generalizing pairs count with
  | nil => simp
  | cons item items induction =>
      have room := room_of_fits fits
      rw [List.foldlM_cons, packs pairs count _ _ room, pure_bind, induction]
      · congr 2
        · simp
        · rw [List.length_cons, BitVec.add_assoc, BitVec.add_right_inj, Nat.add_comm,
            BitVec.ofNat_add]
          rfl
      · simpa using fits

theorem foldlM_insertNewWithin_packed [BEq κ] (addressable : Addressable fresh) (depth : Nat)
    (items : List (KeyValuePair κ υ)) (pairs : List (KeyValuePair κ υ)) (count : BitVec 32)
    (fits : ∀ nth, (pairsHomedAt T fresh.bitMask nth (pairs ++ items)).length ≤ 32) :
    items.foldlM (fun s pair => insertNewWithin T (depth + 1) s pair.key pair.value)
        (packed T fresh pairs count) =
      pure (packed T fresh (pairs ++ items) (count + BitVec.ofNat 32 items.length)) :=
  foldlM_packed (insertNewWithin_packed addressable depth) items pairs count fits

theorem entries_packed_perm (addressable : Addressable fresh) {pairs : List (KeyValuePair κ υ)}
    (count : BitVec 32)
    (fits : ∀ nth, (pairsHomedAt T fresh.bitMask nth pairs).length ≤ 32) :
    (packed T fresh pairs count).entries.Perm pairs := by
  have grouped : (packed T fresh pairs count).entries =
      (List.range fresh.memory.length).flatMap fun nth =>
        pairsHomedAt T fresh.bitMask nth pairs := by
    rw [Hashmap.entries, packed, List.flatMap_map]
    apply List.flatMap_congr
    intro nth _
    exact entries_packedBlock (fits nth)
  rw [grouped]
  exact flatMap_filter_perm _ pairs fun pair _ => addressable.homeBlock_lt T pair.key

theorem invariant_packed (addressable : Addressable fresh) {pairs : List (KeyValuePair κ υ)}
    {count : BitVec 32} (fits : ∀ nth, (pairsHomedAt T fresh.bitMask nth pairs).length ≤ 32)
    (keys_nodup : (pairs.map KeyValuePair.key).Nodup) (count_eq : count.toNat = pairs.length) :
    Invariant T (packed T fresh pairs count) where
  toAddressable := addressable_packed addressable pairs count
  slots := by
    intro nth block block_eq slot occupied
    have inside : nth < fresh.memory.length := by
      obtain ⟨inside, -⟩ := List.getElem?_eq_some_iff.mp block_eq
      simpa [packed] using inside
    rw [memory_packed inside, Option.some.injEq] at block_eq
    subst block
    have slot_lt := (packedBlock_header_ne_zero_iff slot).mp occupied
    have member := List.getElem_mem slot_lt
    have home_eq := (List.mem_filter.mp member).2
    simp only [decide_eq_true_eq] at home_eq
    simp only [packedBlock, List.getElem?_eq_getElem slot_lt, Option.getD_some]
    exact ⟨rfl, home_eq⟩
  keys_nodup :=
    ((entries_packed_perm addressable count fits).map KeyValuePair.key).nodup_iff.mpr keys_nodup
  count_eq := by
    rw [(entries_packed_perm addressable count fits).length_eq]
    exact count_eq

end PackedTable

/-! ## The loops of `_resize` -/

/-- Pairs the rehash scans visit, in the order they visit them. -/
def Hashmap.livePairs (s : Hashmap κ υ) : List (KeyValuePair κ υ) :=
  s.memory.flatMap Block.livePairs

/-- The nested loops of `_resize` are one fold over the live pairs of the backup. -/
theorem foldlM_rehashBlock (T : Traits κ υ)
    (insertNew : Hashmap κ υ → κ → υ → Exec (Hashmap κ υ)) (backup start : Hashmap κ υ) :
    (List.range (backup.capacity >>> 5).toNat).foldlM (rehashBlock T insertNew backup) start =
      backup.livePairs.foldlM (fun s pair => insertNew s pair.key pair.value) start := by
  have prefixes : ∀ n ≤ backup.memory.length,
      (List.range n).foldlM (rehashBlock T insertNew backup) start =
        ((backup.memory.take n).flatMap Block.livePairs).foldlM
          (fun s pair => insertNew s pair.key pair.value) start := by
    intro n inside
    induction n with
    | zero => rfl
    | succ n induction =>
        have block_eq : backup.memory[n]? = some (backup.memory.get ⟨n, inside⟩) :=
          List.getElem?_eq_getElem inside
        rw [List.range_succ, List.foldlM_append, induction (by omega), List.take_add_one, block_eq,
          List.flatMap_append, List.foldlM_append]
        congr 1
        funext middle
        simp [rehashBlock_eq, headerBlock_eq T block_eq]
  have blocks : (backup.capacity >>> 5).toNat = backup.memory.length := by
    rw [backup.allocated, BitVec.toNat_ushiftRight, Nat.shiftRight_eq_div_pow]
  rw [blocks, prefixes _ le_rfl, List.take_length]
  rfl

theorem Block.livePairs_eq_entries {block : Block κ υ}
    (odd : ∀ slot, block.header slot ≠ 0#16 → (block.header slot).getLsbD 0 = true) :
    block.livePairs = block.entries := by
  rw [livePairs, entries, pairsWhere, pairsWhere]
  congr 1
  apply List.filter_congr
  intro slot _
  by_cases free : block.header slot = 0#16
  · simp [free]
  · rw [odd slot free]
    simp [free]

theorem Invariant.livePairs_eq {T : Traits κ υ} {s : Hashmap κ υ} (invariant : Invariant T s) :
    s.livePairs = s.entries := by
  apply List.flatMap_congr
  intro block member
  obtain ⟨nth, block_eq⟩ := List.mem_iff_getElem?.mp member
  apply Block.livePairs_eq_entries
  intro slot occupied
  rw [(invariant.slots nth block block_eq slot occupied).1]
  exact headerOf_bit_zero _ _ _

/-! ## Doubling -/

section Doubling

variable {T : Traits κ υ} {s : Hashmap κ υ}

theorem shiftLeft_one_toNat {capacity : BitVec 32} (no_wrap : 2 * capacity.toNat < 2 ^ 32) :
    (capacity <<< 1).toNat = 2 * capacity.toNat := by
  rw [BitVec.toNat_shiftLeft, Nat.shiftLeft_eq]
  omega

theorem shiftLeft_one_ne_zero {capacity : BitVec 32} (positive : capacity.toNat ≠ 0)
    (no_wrap : 2 * capacity.toNat < 2 ^ 32) : capacity <<< 1 ≠ 0#32 := by
  intro zero
  have value := shiftLeft_one_toNat no_wrap
  rw [zero, BitVec.toNat_ofNat] at value
  omega

theorem capacity_doubled (no_wrap : 2 * s.capacity.toNat < 2 ^ 32) :
    (doubled T s).capacity.toNat = 2 * s.capacity.toNat :=
  shiftLeft_one_toNat no_wrap

theorem exponent_doubled (positive : s.capacity.toNat ≠ 0)
    (no_wrap : 2 * s.capacity.toNat < 2 ^ 32) :
    (doubled T s).exponent = s.exponent + 1 := by
  rw [exponent, capacity_doubled no_wrap, Nat.mul_comm, Nat.log_mul_base (by decide) positive]
  rfl

theorem addressable_doubled (addressable : Addressable s)
    (no_wrap : 2 * s.capacity.toNat < 2 ^ 32) : Addressable (doubled T s) where
  capacity_ge := by
    have := addressable.capacity_ge
    rw [capacity_doubled no_wrap]
    omega
  bitMask_eq := by
    have positive := addressable.capacity_ne_zero
    have nonzero := shiftLeft_one_ne_zero positive no_wrap
    rw [doubled, resizeMask_toNat (log2_lt nonzero), log2_toNat nonzero]
    rfl

theorem pairsHomedAt_entries (invariant : Invariant T s) {nth : Nat} {block : Block κ υ}
    (block_eq : s.memory[nth]? = some block) :
    pairsHomedAt T s.bitMask nth s.entries = block.entries := by
  have homed : ∀ other old, s.memory[other]? = some old → ∀ pair ∈ old.entries,
      (nthHeaderBlock (home (T.hasher pair.key) s.bitMask)).toNat = other := by
    intro other old old_eq pair member
    obtain ⟨slot, occupied, rfl⟩ := Block.mem_entries.mp member
    exact (invariant.slots other old old_eq slot occupied).2
  rw [Hashmap.entries, pairsHomedAt, List.filter_flatMap, flatMap_eq_of_single block_eq]
  · rw [List.filter_eq_self]
    intro pair member
    simpa using homed nth block block_eq pair member
  · intro other old distinct old_eq
    rw [List.filter_eq_nil_iff]
    intro pair member
    simpa [homed other old old_eq pair member] using distinct

/-- Each new block draws its entries from the one old block it refines. -/
theorem pairsHomedAt_doubled (invariant : Invariant T s)
    (no_wrap : 2 * s.capacity.toNat < 2 ^ 32) {nth : Nat} {block : Block κ υ}
    (block_eq : s.memory[nth % 2 ^ (s.exponent - 5)]? = some block) :
    pairsHomedAt T (doubled T s).bitMask nth s.entries =
      pairsHomedAt T (doubled T s).bitMask nth block.entries := by
  have positive := invariant.capacity_ne_zero
  have addressable := addressable_doubled (T := T) invariant.toAddressable no_wrap
  have drawn : ∀ other old, s.memory[other]? = some old → ∀ pair ∈ old.entries,
      (nthHeaderBlock (home (T.hasher pair.key) (doubled T s).bitMask)).toNat = nth →
        other = nth % 2 ^ (s.exponent - 5) := by
    intro other old old_eq pair member homed
    obtain ⟨slot, occupied, rfl⟩ := Block.mem_entries.mp member
    have old_home := (invariant.slots other old old_eq slot occupied).2
    rw [nthHeaderBlock_toNat invariant.bitMask_eq] at old_home
    rw [nthHeaderBlock_toNat addressable.bitMask_eq, exponent_doubled positive no_wrap] at homed
    rw [← homed, blockUnder_add_mod invariant.exponent_ge, old_home]
  rw [Hashmap.entries, pairsHomedAt, List.filter_flatMap]
  apply flatMap_eq_of_single block_eq
  intro other old distinct old_eq
  rw [List.filter_eq_nil_iff]
  intro pair member homed
  exact distinct (drawn other old old_eq pair member (by simpa using homed))

theorem pairsHomedAt_doubled_length_le (invariant : Invariant T s)
    (no_wrap : 2 * s.capacity.toNat < 2 ^ 32) (nth : Nat) :
    (pairsHomedAt T (doubled T s).bitMask nth s.entries).length ≤ 32 := by
  have inside : nth % 2 ^ (s.exponent - 5) < s.memory.length :=
    (Nat.mod_lt _ (Nat.two_pow_pos _)).trans_le invariant.blocks_le
  rw [pairsHomedAt_doubled invariant no_wrap (List.getElem?_eq_getElem inside)]
  exact (List.length_filter_le _ _).trans (Block.entries_length_le _)

/-- The table `_resize` leaves. -/
def rehashed (T : Traits κ υ) (s : Hashmap κ υ) : Hashmap κ υ :=
  packed T (doubled T s) s.entries s.count

/-- A capacity that doubles to zero stops `_resize` at the shift by `log2(0)`. -/
theorem resizeWithin_of_zero [BEq κ] (zero : s.capacity <<< 1 = 0#32) (depth : Nat) :
    resizeWithin T (depth + 1) s = ⟨[s.capacity], .error .undefinedShift⟩ := by
  rw [resizeWithin, zero, log2_zero]
  rfl

theorem doubled_eq_packed (T : Traits κ υ) (s : Hashmap κ υ) :
    doubled T s = packed T (doubled T s) [] s.count := by
  apply Hashmap.ext <;> try rfl
  apply List.ext_getElem
  · simp [packed]
  · intro nth _ _
    simp [packed, doubled, calloc, pairsHomedAt, packedBlock_nil]

/-- One growth step: a single logged doubling and the packed table. -/
theorem resizeWithin_eq [BEq κ] (invariant : Invariant T s)
    (no_wrap : 2 * s.capacity.toNat < 2 ^ 32) (depth : Nat) :
    resizeWithin T (depth + 2) s =
      Execution.emit s.capacity >>= fun _ => pure (rehashed T s) := by
  have positive := invariant.capacity_ne_zero
  have fold := foldlM_insertNewWithin_packed (T := T)
    (addressable_doubled invariant.toAddressable no_wrap) depth s.entries [] s.count
    (by simpa using pairsHomedAt_doubled_length_le invariant no_wrap)
  rw [← doubled_eq_packed, List.nil_append] at fold
  rw [resizeWithin, if_pos (log2_lt (shiftLeft_one_ne_zero positive no_wrap)),
    foldlM_rehashBlock, invariant.livePairs_eq, fold]
  rfl

theorem entries_rehashed_perm (invariant : Invariant T s)
    (no_wrap : 2 * s.capacity.toNat < 2 ^ 32) : (rehashed T s).entries.Perm s.entries :=
  entries_packed_perm (addressable_doubled invariant.toAddressable no_wrap) s.count
    (pairsHomedAt_doubled_length_le invariant no_wrap)

theorem invariant_rehashed (invariant : Invariant T s)
    (no_wrap : 2 * s.capacity.toNat < 2 ^ 32) : Invariant T (rehashed T s) :=
  invariant_packed (addressable_doubled invariant.toAddressable no_wrap)
    (pairsHomedAt_doubled_length_le invariant no_wrap) invariant.keys_nodup invariant.count_eq

end Doubling

end RobinHoodHashmap
