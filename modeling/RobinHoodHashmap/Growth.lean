import RobinHoodHashmap.Rehash

/-!
# Growth chains

`insert`, `_resize` and `_insert_new` call each other until the block of the new key has room.
How long that takes is read off the hashes of the stored keys: growth number `j` is needed as long
as thirty-two stored keys share the block of the new key under `j` more hash bits.  Either some
representable capacity ends the chain, and both entry points end in the same table, or the
capacity is driven past 32 bits.
-/

namespace RobinHoodHashmap

open Hashmap

variable {κ υ : Type}

/-- A doubling of this capacity stays inside 32 bits. -/
def Doubles (capacity : BitVec 32) : Prop := 2 * capacity.toNat < 2 ^ 32

/-- No `_capacity << 1` of the execution overflows. -/
def NoWrap {α : Type} (execution : Exec α) : Prop := execution.Always Doubles

instance : DecidablePred Doubles := fun capacity =>
  inferInstanceAs (Decidable (2 * capacity.toNat < 2 ^ 32))

instance {α : Type} (execution : Exec α) : Decidable (NoWrap execution) :=
  decidable_of_iff ((execution.log.all fun event => decide (Doubles event)) = true)
    (by simp [NoWrap, Execution.Always])

namespace Hashmap

/-- Number of stored keys that share the block of `key` after `more` doublings. -/
def crowding (T : Traits κ υ) (s : Hashmap κ υ) (key : κ) (more : Nat) : Nat :=
  s.keys.countP fun other =>
    blockUnder (s.exponent + more) (T.hasher other) = blockUnder (s.exponent + more) (T.hasher key)

/-- The table after placing a new key in the first free slot of its home block. -/
def settled (T : Traits κ υ) (s : Hashmap κ υ) (key : κ) (value : υ) : Hashmap κ υ :=
  match s.memory[s.homeBlock T key]? with
  | some block =>
      match block.freeSlot with
      | some slot => s.place T (s.homeBlock T key) block slot key value
      | none => s
  | none => s

end Hashmap

/-- The capacities at which a chain of doublings calls `_resize`. -/
def doublings (capacity : BitVec 32) : Nat → List (BitVec 32)
  | 0 => []
  | n + 1 => capacity :: doublings (capacity <<< 1) n

@[simp] theorem length_doublings (capacity : BitVec 32) (n : Nat) :
    (doublings capacity n).length = n := by
  induction n generalizing capacity with
  | zero => rfl
  | succ n induction => simp [doublings, induction]

theorem doubles_of_bounded {capacity : BitVec 32} {n : Nat}
    (bounded : capacity.toNat * 2 ^ (n + 1) < 2 ^ 32) :
    Doubles capacity ∧ 2 * capacity.toNat * 2 ^ n < 2 ^ 32 := by
  have rest : 2 * capacity.toNat * 2 ^ n < 2 ^ 32 := by
    calc
      2 * capacity.toNat * 2 ^ n = capacity.toNat * 2 ^ (n + 1) := by ring
      _ < 2 ^ 32 := bounded
  exact ⟨(Nat.le_mul_of_pos_right _ (Nat.two_pow_pos n)).trans_lt rest, rest⟩

theorem doubles_of_mem_doublings {capacity event : BitVec 32} {n : Nat}
    (no_wrap : capacity.toNat * 2 ^ n < 2 ^ 32) (member : event ∈ doublings capacity n) :
    Doubles event := by
  induction n generalizing capacity with
  | zero => simp [doublings] at member
  | succ n induction =>
      obtain ⟨first, rest⟩ := doubles_of_bounded no_wrap
      rcases List.mem_cons.mp member with rfl | later
      · exact first
      · apply induction _ later
        rwa [shiftLeft_one_toNat first]

section Chain

variable {T : Traits κ υ} {s : Hashmap κ υ} {key : κ}

theorem crowding_zero (invariant : Invariant T s) {block : Block κ υ}
    (block_eq : s.memory[s.homeBlock T key]? = some block) :
    s.crowding T key 0 = block.entries.length := by
  rw [← pairsHomedAt_entries invariant block_eq, crowding, keys, List.countP_map,
    List.countP_eq_length_filter, pairsHomedAt]
  congr 1
  apply List.filter_congr
  intro pair _
  rw [invariant.homeBlock_eq, nthHeaderBlock_toNat invariant.bitMask_eq]
  rfl

theorem freeSlot_eq_none_iff_crowding (invariant : Invariant T s) {block : Block κ υ}
    (block_eq : s.memory[s.homeBlock T key]? = some block) :
    block.freeSlot = none ↔ 32 ≤ s.crowding T key 0 := by
  have bound := block.entries_length_le
  rw [Block.freeSlot_eq_none_iff, crowding_zero invariant block_eq]
  omega

theorem exists_freeSlot_of_room (invariant : Invariant T s) {block : Block κ υ}
    (block_eq : s.memory[s.homeBlock T key]? = some block) (room : s.crowding T key 0 < 32) :
    ∃ slot, block.freeSlot = some slot := by
  apply Option.ne_none_iff_exists'.mp
  rw [Ne, freeSlot_eq_none_iff_crowding invariant block_eq]
  omega

theorem crowded_of_least {n more : Nat} (least : IsLeast {more | s.crowding T key more < 32} n)
    (before : more < n) : 32 ≤ s.crowding T key more := by
  by_contra room
  exact absurd (least.2 (Nat.lt_of_not_le room)) (Nat.not_le_of_lt before)

theorem settled_of_free {block : Block κ υ} {slot : Fin 32} {value : υ}
    (block_eq : s.memory[s.homeBlock T key]? = some block) (free : block.freeSlot = some slot) :
    s.settled T key value = s.place T (s.homeBlock T key) block slot key value := by
  simp only [settled, block_eq, free]

theorem keys_rehashed_perm (invariant : Invariant T s) (no_wrap : Doubles s.capacity) :
    (rehashed T s).keys.Perm s.keys :=
  (entries_rehashed_perm invariant no_wrap).map KeyValuePair.key

theorem crowding_rehashed (invariant : Invariant T s) (no_wrap : Doubles s.capacity) (more : Nat) :
    (rehashed T s).crowding T key more = s.crowding T key (more + 1) := by
  have exponent_eq : (rehashed T s).exponent = s.exponent + 1 :=
    exponent_doubled (T := T) invariant.capacity_ne_zero no_wrap
  rw [crowding, crowding, exponent_eq, (keys_rehashed_perm invariant no_wrap).countP_eq,
    show s.exponent + 1 + more = s.exponent + (more + 1) by omega]

theorem rehashed_spec (invariant : Invariant T s) (absent : key ∉ s.keys)
    (doubles : Doubles s.capacity) :
    Invariant T (rehashed T s) ∧ key ∉ (rehashed T s).keys ∧
      (rehashed T s).capacity.toNat = 2 * s.capacity.toNat := by
  refine ⟨invariant_rehashed invariant doubles, ?_, shiftLeft_one_toNat doubles⟩
  rwa [(keys_rehashed_perm invariant doubles).mem_iff]

theorem settled_spec (invariant : Invariant T s) (absent : key ∉ s.keys)
    (room : s.crowding T key 0 < 32) (value : υ) :
    Invariant T (s.settled T key value) ∧
      (s.settled T key value).entries.Perm (⟨key, value⟩ :: s.entries) ∧
      (s.settled T key value).capacity = s.capacity := by
  obtain ⟨block, block_eq⟩ := invariant.exists_home T key
  obtain ⟨slot, free⟩ := exists_freeSlot_of_room invariant block_eq room
  have placed := invariant.place block_eq (Block.header_of_freeSlot free) absent value
  rw [settled_of_free block_eq free]
  exact ⟨placed.1, placed.2, rfl⟩

variable [BEq κ] [LawfulBEq κ]

theorem insertWithin_of_room (invariant : Invariant T s) (absent : key ∉ s.keys)
    (room : s.crowding T key 0 < 32) (depth : Nat) (value : υ) :
    insertWithin T (depth + 1) s key value = pure (s.settled T key value) ∧
      insertNewWithin T (depth + 1) s key value = pure (s.settled T key value) := by
  obtain ⟨block, block_eq⟩ := invariant.exists_home T key
  have missing := (invariant.lookup_eq_none_iff block_eq).mpr absent
  obtain ⟨slot, free⟩ := exists_freeSlot_of_room invariant block_eq room
  rw [settled_of_free block_eq free]
  exact ⟨insertWithin_of_free block_eq depth value missing free,
    insertNewWithin_of_free block_eq depth value free⟩

/-- Both entry points call `_resize` first when the home block of an absent key is full; the one
continues as the other. -/
theorem insertWithin_of_crowded (invariant : Invariant T s) (absent : key ∉ s.keys)
    (crowded : 32 ≤ s.crowding T key 0) (depth : Nat) (value : υ) :
    insertWithin T (depth + 1) s key value =
        (resizeWithin T depth s >>= fun s => insertNewWithin T depth s key value) ∧
      insertNewWithin T (depth + 1) s key value =
        (resizeWithin T depth s >>= fun s => insertWithin T depth s key value) := by
  obtain ⟨block, block_eq⟩ := invariant.exists_home T key
  have missing := (invariant.lookup_eq_none_iff block_eq).mpr absent
  have full := (freeSlot_eq_none_iff_crowding invariant block_eq).mpr crowded
  exact ⟨insertWithin_of_full block_eq depth value missing full,
    insertNewWithin_of_full block_eq depth value full⟩

/-- One step of a growth chain: a doubling, after which the other entry point continues. -/
theorem insertWithin_of_doubles (invariant : Invariant T s) (absent : key ∉ s.keys)
    (crowded : 32 ≤ s.crowding T key 0) (doubles : Doubles s.capacity) (depth : Nat) (value : υ) :
    insertWithin T (depth + 3) s key value = (Execution.emit s.capacity >>= fun _ =>
        insertNewWithin T (depth + 2) (rehashed T s) key value) ∧
      insertNewWithin T (depth + 3) s key value = (Execution.emit s.capacity >>= fun _ =>
        insertWithin T (depth + 2) (rehashed T s) key value) := by
  have step := insertWithin_of_crowded invariant absent crowded (depth + 2) value
  rw [resizeWithin_eq invariant doubles depth] at step
  simpa only [bind_assoc, pure_bind] using step

/-- The growth chain: `n` doublings, then the key is placed.  The induction is on the length of
the chain and carries both entry points, since each continues as the other. -/
theorem growth_chain (value : υ) (n : Nat) :
    ∀ s : Hashmap κ υ, Invariant T s → key ∉ s.keys → s.capacity.toNat * 2 ^ n < 2 ^ 32 →
      (∀ more < n, 32 ≤ s.crowding T key more) → s.crowding T key n < 32 → ∀ depth,
        insertWithin T (depth + n + 3) s key value =
            ⟨doublings s.capacity n, .ok (((rehashed T)^[n] s).settled T key value)⟩ ∧
          insertNewWithin T (depth + n + 3) s key value =
            ⟨doublings s.capacity n, .ok (((rehashed T)^[n] s).settled T key value)⟩ := by
  induction n with
  | zero =>
      intro s invariant absent _ _ room depth
      exact insertWithin_of_room invariant absent room (depth + 2) value
  | succ n induction =>
      intro s invariant absent no_wrap crowded room depth
      obtain ⟨doubles, rest⟩ := doubles_of_bounded no_wrap
      obtain ⟨preserved, still_absent, capacity_eq⟩ := rehashed_spec invariant absent doubles
      have shifted : ∀ more, (rehashed T s).crowding T key more = s.crowding T key (more + 1) :=
        crowding_rehashed invariant doubles
      have chain := induction (rehashed T s) preserved still_absent (by rwa [capacity_eq])
        (fun more before => by
          rw [shifted]
          exact crowded _ (by omega))
        (by rwa [shifted]) depth
      have step := insertWithin_of_doubles invariant absent (crowded 0 (by omega)) doubles
        (depth + n + 1) value
      rw [chain.1, chain.2] at step
      exact step

/-- A chain that is crowded at every level up to `n` reaches the `n`-fold doubled capacity. -/
theorem growth_chain_log (value : υ) (n : Nat) :
    ∀ s : Hashmap κ υ, Invariant T s → key ∉ s.keys → s.capacity.toNat * 2 ^ n < 2 ^ 32 →
      (∀ more ≤ n, 32 ≤ s.crowding T key more) → ∀ depth,
        (∃ event ∈ (insertWithin T (depth + n + 3) s key value).log,
            event.toNat = s.capacity.toNat * 2 ^ n) ∧
          ∃ event ∈ (insertNewWithin T (depth + n + 3) s key value).log,
            event.toNat = s.capacity.toNat * 2 ^ n := by
  induction n with
  | zero =>
      intro s invariant absent _ crowded depth
      have step := insertWithin_of_crowded invariant absent (crowded 0 le_rfl) (depth + 2) value
      constructor
      · rw [step.1, resizeWithin, bind_assoc, Execution.log_emit_bind]
        exact ⟨s.capacity, List.mem_cons_self, by simp⟩
      · rw [step.2, resizeWithin, bind_assoc, Execution.log_emit_bind]
        exact ⟨s.capacity, List.mem_cons_self, by simp⟩
  | succ n induction =>
      intro s invariant absent no_wrap crowded depth
      obtain ⟨doubles, rest⟩ := doubles_of_bounded no_wrap
      obtain ⟨preserved, still_absent, capacity_eq⟩ := rehashed_spec invariant absent doubles
      have chain := induction (rehashed T s) preserved still_absent (by rwa [capacity_eq])
        (fun more before => by
          rw [crowding_rehashed invariant doubles]
          exact crowded _ (by omega)) depth
      have total : 2 * s.capacity.toNat * 2 ^ n = s.capacity.toNat * 2 ^ (n + 1) := by ring
      rw [capacity_eq, total] at chain
      have step := insertWithin_of_doubles invariant absent (crowded 0 (by omega)) doubles
        (depth + n + 1) value
      obtain ⟨⟨event, member, event_eq⟩, ⟨event', member', event_eq'⟩⟩ := chain
      constructor
      · rw [show depth + (n + 1) + 3 = depth + n + 1 + 3 by omega, step.1]
        exact ⟨event', List.mem_cons_of_mem _ member', event_eq'⟩
      · rw [show depth + (n + 1) + 3 = depth + n + 1 + 3 by omega, step.2]
        exact ⟨event, List.mem_cons_of_mem _ member, event_eq⟩

/-- A chain that is crowded at every capacity doubles until the shifted capacity is zero, whose
`log2` is no shift distance. -/
theorem growth_chain_fault (value : υ) (n : Nat) :
    ∀ s : Hashmap κ υ, Invariant T s → key ∉ s.keys → s.capacity.toNat * 2 ^ (n + 1) = 2 ^ 32 →
      (∀ more ≤ n, 32 ≤ s.crowding T key more) → ∀ depth,
        insertWithin T (depth + n + 3) s key value =
            ⟨doublings s.capacity (n + 1), .error .undefinedShift⟩ ∧
          insertNewWithin T (depth + n + 3) s key value =
            ⟨doublings s.capacity (n + 1), .error .undefinedShift⟩ := by
  induction n with
  | zero =>
      intro s invariant absent wraps crowded depth
      have zero : s.capacity <<< 1 = 0#32 := by
        apply BitVec.eq_of_toNat_eq
        rw [BitVec.toNat_shiftLeft, Nat.shiftLeft_eq, wraps]
        rfl
      have step := insertWithin_of_crowded invariant absent (crowded 0 le_rfl) (depth + 2) value
      rw [resizeWithin_of_zero zero (depth + 1)] at step
      exact step
  | succ n induction =>
      intro s invariant absent wraps crowded depth
      have bounded : s.capacity.toNat * 2 ^ (n + 1) < 2 ^ 32 := by
        have positive := invariant.capacity_ge
        have power := Nat.two_pow_pos (n + 1)
        calc
          s.capacity.toNat * 2 ^ (n + 1) < s.capacity.toNat * 2 ^ (n + 1 + 1) :=
            Nat.mul_lt_mul_of_pos_left (by omega) (by omega)
          _ = 2 ^ 32 := wraps
      obtain ⟨doubles, -⟩ := doubles_of_bounded bounded
      obtain ⟨preserved, still_absent, capacity_eq⟩ := rehashed_spec invariant absent doubles
      have wraps_later : (rehashed T s).capacity.toNat * 2 ^ (n + 1) = 2 ^ 32 := by
        rw [capacity_eq, ← wraps]
        ring
      have chain := induction (rehashed T s) preserved still_absent wraps_later
        (fun more before => by
          rw [crowding_rehashed invariant doubles]
          exact crowded _ (by omega)) depth
      have step := insertWithin_of_doubles invariant absent (crowded 0 (by omega)) doubles
        (depth + n + 1) value
      rw [chain.1, chain.2] at step
      exact step

/-! ## Both ends of a chain -/

omit [BEq κ] [LawfulBEq κ] in
theorem grown_spec (invariant : Invariant T s) (n : Nat)
    (no_wrap : s.capacity.toNat * 2 ^ n < 2 ^ 32) :
    Invariant T ((rehashed T)^[n] s) ∧ ((rehashed T)^[n] s).entries.Perm s.entries ∧
      ((rehashed T)^[n] s).capacity.toNat = s.capacity.toNat * 2 ^ n ∧
      ∀ key more, ((rehashed T)^[n] s).crowding T key more = s.crowding T key (n + more) := by
  induction n with
  | zero => exact ⟨invariant, List.Perm.refl _, by simp, by simp⟩
  | succ n induction =>
      rw [Nat.pow_succ, ← Nat.mul_assoc] at no_wrap
      obtain ⟨grown, entries_perm, capacity_eq, crowding_eq⟩ := induction (by omega)
      have doubles : Doubles ((rehashed T)^[n] s).capacity := by
        rwa [Doubles, capacity_eq, Nat.mul_comm]
      rw [Function.iterate_succ_apply']
      refine ⟨invariant_rehashed grown doubles,
        (entries_rehashed_perm grown doubles).trans entries_perm, ?_, ?_⟩
      · rw [show (rehashed T ((rehashed T)^[n] s)).capacity = ((rehashed T)^[n] s).capacity <<< 1
          from rfl, shiftLeft_one_toNat doubles, capacity_eq]
        ring
      · intro key more
        rw [crowding_rehashed grown doubles, crowding_eq]
        congr 1
        omega

theorem exists_last_doubling {c : Nat} (positive : 0 < c) (bounded : c < 2 ^ 32) :
    ∃ n, c * 2 ^ n < 2 ^ 32 ∧ 2 ^ 32 ≤ 2 * (c * 2 ^ n) := by
  have log_lt : Nat.log 2 c < 32 := Nat.log_lt_of_lt_pow' (by decide) bounded
  have lower : 2 ^ Nat.log 2 c ≤ c := Nat.pow_log_le_self 2 (by omega)
  have upper : c < 2 ^ (Nat.log 2 c + 1) := Nat.lt_pow_succ_log_self (by decide) c
  refine ⟨31 - Nat.log 2 c, ?_, ?_⟩
  · calc
      c * 2 ^ (31 - Nat.log 2 c) < 2 ^ (Nat.log 2 c + 1) * 2 ^ (31 - Nat.log 2 c) :=
        Nat.mul_lt_mul_of_pos_right upper (Nat.two_pow_pos _)
      _ = 2 ^ 32 := by
        rw [← Nat.pow_add]
        congr 1
        omega
  · calc
      2 ^ 32 = 2 * (2 ^ Nat.log 2 c * 2 ^ (31 - Nat.log 2 c)) := by
        rw [← Nat.pow_add, ← Nat.pow_succ']
        congr 1
        omega
      _ ≤ 2 * (c * 2 ^ (31 - Nat.log 2 c)) :=
        Nat.mul_le_mul_left 2 (Nat.mul_le_mul_right _ lower)

omit [BEq κ] [LawfulBEq κ] in
theorem chain_fits (invariant : Invariant T s) {n : Nat}
    (no_wrap : s.capacity.toNat * 2 ^ n < 2 ^ 32) : ∃ depth, callDepth = depth + n + 3 := by
  have capacity_ge := invariant.capacity_ge
  have small : 2 ^ n < 2 ^ 27 := by
    by_contra large
    have product : 32 * 2 ^ 27 ≤ s.capacity.toNat * 2 ^ n :=
      Nat.mul_le_mul capacity_ge (Nat.le_of_not_lt large)
    omega
  have n_lt : n < 27 := (Nat.pow_lt_pow_iff_right (by decide)).mp small
  exact ⟨61 - n, by rw [callDepth]; omega⟩

/-- A chain that ends: the least number of doublings after which the new key has room. -/
theorem insert_absent (invariant : Invariant T s) (absent : key ∉ s.keys) {n : Nat}
    (least : IsLeast {more | s.crowding T key more < 32} n)
    (no_wrap : s.capacity.toNat * 2 ^ n < 2 ^ 32) (value : υ) :
    insert T s key value =
        ⟨doublings s.capacity n, .ok (((rehashed T)^[n] s).settled T key value)⟩ ∧
      insertNew T s key value =
        ⟨doublings s.capacity n, .ok (((rehashed T)^[n] s).settled T key value)⟩ := by
  obtain ⟨depth, depth_eq⟩ := chain_fits invariant no_wrap
  rw [insert, insertNew, depth_eq]
  exact growth_chain value n s invariant absent no_wrap (fun _ before => crowded_of_least least before)
    least.1 depth

theorem insert_absent_spec (invariant : Invariant T s) (absent : key ∉ s.keys) {n : Nat}
    (least : IsLeast {more | s.crowding T key more < 32} n)
    (no_wrap : s.capacity.toNat * 2 ^ n < 2 ^ 32) (value : υ) :
    ∃ s', insert T s key value = ⟨doublings s.capacity n, .ok s'⟩ ∧ Invariant T s' ∧
      s'.entries.Perm (⟨key, value⟩ :: s.entries) ∧
      s'.capacity.toNat = s.capacity.toNat * 2 ^ n := by
  obtain ⟨grown, entries_perm, capacity_eq, crowding_eq⟩ := grown_spec invariant n no_wrap
  have still_absent : key ∉ ((rehashed T)^[n] s).keys := by
    rwa [keys, (entries_perm.map KeyValuePair.key).mem_iff]
  have room : ((rehashed T)^[n] s).crowding T key 0 < 32 := by
    rw [crowding_eq]
    exact least.1
  obtain ⟨preserved, placed, kept⟩ := settled_spec grown still_absent room value
  exact ⟨_, (insert_absent invariant absent least no_wrap value).1, preserved,
    placed.trans (entries_perm.cons _), by rw [kept, capacity_eq]⟩

theorem noWrap_insert (invariant : Invariant T s) (absent : key ∉ s.keys) {n : Nat}
    (least : IsLeast {more | s.crowding T key more < 32} n)
    (no_wrap : s.capacity.toNat * 2 ^ n < 2 ^ 32) (value : υ) :
    NoWrap (insert T s key value) := by
  rw [(insert_absent invariant absent least no_wrap value).1]
  exact fun _ member => doubles_of_mem_doublings no_wrap member

/-- A chain that does not end within 32 bits overflows, whichever entry point started it. -/
theorem insert_absent_wraps (invariant : Invariant T s) (absent : key ∉ s.keys)
    (crowded : ∀ more, s.capacity.toNat * 2 ^ more < 2 ^ 32 → 32 ≤ s.crowding T key more)
    (value : υ) : ¬NoWrap (insert T s key value) ∧ ¬NoWrap (insertNew T s key value) := by
  obtain ⟨n, no_wrap, last⟩ := exists_last_doubling
    (Nat.pos_of_ne_zero invariant.capacity_ne_zero) s.capacity.isLt
  obtain ⟨depth, depth_eq⟩ := chain_fits invariant no_wrap
  have chain := growth_chain_log value n s invariant absent no_wrap (fun more before => by
    apply crowded
    exact (Nat.mul_le_mul_left _ (Nat.pow_le_pow_right (by decide) before)).trans_lt no_wrap) depth
  obtain ⟨⟨event, member, event_eq⟩, ⟨event', member', event_eq'⟩⟩ := chain
  rw [insert, insertNew, depth_eq]
  constructor
  · intro always
    have doubles : 2 * event.toNat < 2 ^ 32 := always event member
    omega
  · intro always
    have doubles : 2 * event'.toNat < 2 ^ 32 := always event' member'
    omega

omit [BEq κ] [LawfulBEq κ] in
theorem exists_least_of_room {more : Nat} (bounded : s.capacity.toNat * 2 ^ more < 2 ^ 32)
    (room : s.crowding T key more < 32) :
    ∃ n, IsLeast {more | s.crowding T key more < 32} n ∧ s.capacity.toNat * 2 ^ n < 2 ^ 32 := by
  have some_room : ∃ more, s.crowding T key more < 32 := ⟨more, room⟩
  refine ⟨Nat.find some_room, ⟨Nat.find_spec some_room, fun _ => Nat.find_min' some_room⟩, ?_⟩
  exact (Nat.mul_le_mul_left _ (Nat.pow_le_pow_right (by decide)
    (Nat.find_min' some_room room))).trans_lt bounded

theorem exists_least_of_noWrap (invariant : Invariant T s) (absent : key ∉ s.keys) {value : υ}
    (no_wrap : NoWrap (insert T s key value) ∨ NoWrap (insertNew T s key value)) :
    ∃ n, IsLeast {more | s.crowding T key more < 32} n ∧ s.capacity.toNat * 2 ^ n < 2 ^ 32 := by
  by_cases ends : ∃ more, s.capacity.toNat * 2 ^ more < 2 ^ 32 ∧ s.crowding T key more < 32
  · obtain ⟨more, bounded, room⟩ := ends
    exact exists_least_of_room bounded room
  · have wraps := insert_absent_wraps invariant absent (fun more bounded =>
      Nat.le_of_not_lt fun room => ends ⟨more, bounded, room⟩) value
    exact (no_wrap.elim wraps.1 wraps.2).elim

end Chain

end RobinHoodHashmap
