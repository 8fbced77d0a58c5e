import RobinHoodHashmap.Capacity

/-!
# Geometry in every state

Capacity, maximal offset and mask of a table are those of the constructor for the capacity that the
logged doublings lead to.  This holds of all tables, also of those that hold garbage, and makes
`clear` the constructor of the current capacity.
-/

namespace RobinHoodHashmap

open Hashmap Execution

variable {κ υ : Type}

namespace Hashmap

/-- The geometry fields are the ones the constructor computes for the capacity. -/
structure Shaped (s : Hashmap κ υ) : Prop where
  /-- The constructor rejects capacity zero. -/
  capacity_ne : s.capacity ≠ 0#32
  /-- `_max_offset`. -/
  maxOffset_eq : s.maxOffset = log2 s.capacity
  /-- `_bit_mask`. -/
  bitMask_eq : s.bitMask = constructorMask (log2 s.capacity)

/-- `s'` has the capacity of `s` after the logged doublings, and its geometry is as good. -/
structure Grows (s : Hashmap κ υ) (log : List (BitVec 32)) (s' : Hashmap κ υ) : Prop where
  /-- One shift for every call of `_resize`. -/
  capacity_eq : s'.capacity = s.capacity <<< log.length
  /-- No step spoils the geometry. -/
  shaped : s.Shaped → s'.Shaped

variable {s s' : Hashmap κ υ}

/-- Only the fields of the geometry matter. -/
theorem Grows.of_eq (capacity_eq : s'.capacity = s.capacity)
    (maxOffset_eq : s'.maxOffset = s.maxOffset) (bitMask_eq : s'.bitMask = s.bitMask) :
    Grows s [] s' where
  capacity_eq := by simpa using capacity_eq
  shaped shape := by
    refine ⟨?_, ?_, ?_⟩
    · rw [capacity_eq]
      exact shape.capacity_ne
    · rw [maxOffset_eq, capacity_eq, shape.maxOffset_eq]
    · rw [bitMask_eq, capacity_eq, shape.bitMask_eq]

theorem Grows.refl (s : Hashmap κ υ) : Grows s [] s := Grows.of_eq rfl rfl rfl

theorem Grows.trans (first : Hashmap κ υ) (log : List (BitVec 32)) (second : Hashmap κ υ)
    (later : List (BitVec 32)) (third : Hashmap κ υ) (grows : Grows first log second)
    (grows' : Grows second later third) : Grows first (log ++ later) third where
  capacity_eq := by
    rw [grows'.capacity_eq, grows.capacity_eq, List.length_append, BitVec.shiftLeft_add]
  shaped shape := grows'.shaped (grows.shaped shape)

end Hashmap

theorem shaped_freshTable (T : Traits κ υ) {capacity : BitVec 32} (nonzero : capacity ≠ 0#32) :
    (freshTable T capacity).Shaped :=
  ⟨nonzero, rfl, rfl⟩

/-- The 32-bit mask of `_resize` is the 64-bit mask of the constructor. -/
theorem resizeMask_eq_constructorMask {maxOffset : BitVec 32} (inside : maxOffset.toNat < 32) :
    resizeMask maxOffset = constructorMask maxOffset := by
  apply BitVec.eq_of_toNat_eq
  rw [resizeMask_toNat inside, constructorMask_toNat inside]

/-- The table `_resize` starts to fill has the geometry of its capacity. -/
theorem grows_doubled (T : Traits κ υ) {s : Hashmap κ υ}
    (inside : (log2 (s.capacity <<< 1)).toNat < 32) : Grows s [s.capacity] (doubled T s) where
  capacity_eq := rfl
  shaped _ := by
    refine ⟨fun zero => ?_, rfl, resizeMask_eq_constructorMask inside⟩
    have doubled_zero : s.capacity <<< 1 = 0#32 := zero
    rw [doubled_zero, log2_zero] at inside
    exact absurd inside (by decide)

/-! ## The functions that grow a table -/

section Growing

variable [BEq κ] {T : Traits κ υ} {s : Hashmap κ υ} {depth : Nat}

theorem insertWithin_yields (key : κ) (value : υ)
    (grown : Yields (Grows s) (resizeWithin T depth s >>= fun s => insertNewWithin T depth s key value)) :
    Yields (Grows s) (insertWithin T (depth + 1) s key value) := by
  rcases insertWithin_cases T s depth key value with stopped | ⟨_, _, -, -, assigned⟩ |
    ⟨_, _, -, -, -, placed⟩ | ⟨_, -, -, -, grows⟩
  · rw [stopped]
    exact Yields.fault _
  · rw [assigned]
    exact Yields.pure (.of_eq rfl rfl rfl)
  · rw [placed]
    exact Yields.pure (.of_eq rfl rfl rfl)
  · rw [grows]
    exact grown

theorem insertNewWithin_yields (key : κ) (value : υ)
    (grown : Yields (Grows s) (resizeWithin T depth s >>= fun s => insertWithin T depth s key value)) :
    Yields (Grows s) (insertNewWithin T (depth + 1) s key value) := by
  rcases insertNewWithin_cases T s depth key value with stopped | ⟨_, _, -, -, placed⟩ |
    ⟨_, -, -, grows⟩
  · rw [stopped]
    exact Yields.fault _
  · rw [placed]
    exact Yields.pure (.of_eq rfl rfl rfl)
  · rw [grows]
    exact grown

/-- `_resize` doubles once and then as often as the insertions it makes. -/
theorem resizeWithin_yields (s : Hashmap κ υ)
    (nested : ∀ (s : Hashmap κ υ) key value,
      Yields (Grows s) (insertNewWithin T depth s key value)) :
    Yields (Grows s) (resizeWithin T (depth + 1) s) := by
  rw [resizeWithin]
  refine (Yields.emit s.capacity).bind ?_
  rintro _ ⟨⟩ rfl
  split_ifs with inside
  · rw [foldlM_rehashBlock]
    have folded := Yields.foldlM Grows.refl Grows.trans
      (fun table pair => nested table pair.key pair.value) s.livePairs (doubled T s)
    refine folded.bind fun log filled grows => Yields.pure ?_
    have recounted : Grows filled [] (filled.withCount s.count) := .of_eq rfl rfl rfl
    have total := Grows.trans _ _ _ _ _ (grows_doubled T inside) grows
    exact total.trans _ _ _ _ _ recounted
  · exact Yields.fault _

/-- The induction is on the call depth and carries the three functions. -/
theorem within_yields (T : Traits κ υ) (depth : Nat) :
    (∀ (s : Hashmap κ υ) key value, Yields (Grows s) (insertWithin T depth s key value)) ∧
      (∀ (s : Hashmap κ υ) key value, Yields (Grows s) (insertNewWithin T depth s key value)) ∧
      ∀ s : Hashmap κ υ, Yields (Grows s) (resizeWithin T depth s) := by
  induction depth with
  | zero => exact ⟨fun _ _ _ => Yields.fault _, fun _ _ _ => Yields.fault _, fun _ => Yields.fault _⟩
  | succ depth induction =>
      obtain ⟨inserts, inserts_new, resizes⟩ := induction
      refine ⟨fun s key value => ?_, fun s key value => ?_, fun s => ?_⟩
      · apply insertWithin_yields
        refine (resizes s).bind fun log middle grows result returned => ?_
        exact grows.trans _ _ _ _ _ (inserts_new middle key value result returned)
      · apply insertNewWithin_yields
        refine (resizes s).bind fun log middle grows result returned => ?_
        exact grows.trans _ _ _ _ _ (inserts middle key value result returned)
      · exact resizeWithin_yields s inserts_new

theorem insert_yields (T : Traits κ υ) (s : Hashmap κ υ) (key : κ) (value : υ) :
    Yields (Grows s) (insert T s key value) :=
  (within_yields T callDepth).1 s key value

theorem resize_yields (T : Traits κ υ) (s : Hashmap κ υ) : Yields (Grows s) (resize T s) :=
  (within_yields T callDepth).2.2 s

end Growing

/-! ## Calls -/

section Calls

variable {T : Traits κ υ} {s : Hashmap κ υ}

theorem headerBlock_yields (T : Traits κ υ) (s : Hashmap κ υ) (nth : Nat) :
    Yields (fun log _ => log = []) (headerBlock T s nth) := by
  unfold headerBlock
  split
  · exact Yields.pure rfl
  · exact Yields.fault _

theorem readValue_yields (T : Traits κ υ) (s : Hashmap κ υ) (place : Place) :
    Yields (fun log _ => log = []) (readValue T s place) := by
  refine (headerBlock_yields T s place.block).bind ?_
  rintro _ block rfl
  exact Yields.pure rfl

theorem writeValue_yields (T : Traits κ υ) (s : Hashmap κ υ) (place : Place) (value : υ) :
    Yields (Grows s) (writeValue T s place value) := by
  refine (headerBlock_yields T s place.block).bind ?_
  rintro _ block rfl
  exact Yields.pure (.of_eq rfl rfl rfl)

variable [BEq κ]

theorem find_yields (T : Traits κ υ) (s : Hashmap κ υ) (key : κ) :
    Yields (fun log _ => log = []) (find T s key) := by
  refine (headerBlock_yields T s _).bind ?_
  rintro _ block rfl
  rw [searchBlock_eq, pure_bind]
  exact Yields.pure rfl

theorem erase_yields (T : Traits κ υ) (s : Hashmap κ υ) (key : κ) :
    Yields (fun log erased => Grows s log erased.2) (erase T s key) := by
  refine (headerBlock_yields T s _).bind ?_
  rintro _ block rfl
  rw [searchBlock_eq, pure_bind]
  split
  · exact Yields.pure (.of_eq rfl rfl rfl)
  · exact Yields.pure (.refl s)

theorem findAgain_yields (T : Traits κ υ) (s : Hashmap κ υ) (key : κ) :
    Yields (fun log found => Grows s log found.2) (findAgain T s key) := by
  refine (find_yields T s key).bind ?_
  rintro _ res rfl
  cases res with
  | some place => exact Yields.pure (.refl s)
  | none => exact Yields.fault _

theorem index_yields (T : Traits κ υ) (s : Hashmap κ υ) (key : κ) :
    Yields (fun log found => Grows s log found.2) (index T s key) := by
  refine (find_yields T s key).bind ?_
  rintro _ res rfl
  cases res with
  | some place => exact findAgain_yields T s key
  | none =>
      refine (insert_yields T s key T.defaultValue).bind fun log middle grows found returned => ?_
      exact grows.trans _ _ _ _ _ (findAgain_yields T middle key found returned)

/-- A call keeps the geometry and shifts the capacity once for every doubling it logs. -/
theorem step_yields (T : Traits κ υ) (s : Hashmap κ υ) (op : Op κ υ) :
    Yields (fun log stepped => Grows s log stepped.2) (step T s op) := by
  cases op with
  | insert key value =>
      refine (insert_yields T s key value).bind fun log middle grows => Yields.pure ?_
      simpa using grows
  | find key =>
      refine (find_yields T s key).bind ?_
      rintro _ res rfl
      cases res with
      | some place =>
          refine (readValue_yields T s place).bind ?_
          rintro _ value rfl
          exact Yields.pure (.refl s)
      | none => exact Yields.pure (.refl s)
  | erase key =>
      refine (erase_yields T s key).bind fun log erased grows => Yields.pure ?_
      simpa using grows
  | read key =>
      refine (index_yields T s key).bind fun log found grows => ?_
      refine (readValue_yields T found.2 found.1).bind ?_
      rintro _ value rfl
      exact Yields.pure (by simpa using grows)
  | write key value =>
      refine (index_yields T s key).bind fun log found grows => ?_
      refine (writeValue_yields T found.2 found.1 value).bind fun later middle grows' => ?_
      exact Yields.pure (by simpa using grows.trans _ _ _ _ _ grows')
  | clear => exact Yields.pure (.of_eq rfl rfl rfl)
  | copy => exact Yields.pure (.of_eq rfl rfl rfl)
  | size => exact Yields.pure (.refl s)

/-! ## States after growth -/

/-- States reached from the constructor by any calls, `_resize` itself among them, in which
`_resize` has been called `n` times. -/
inductive AfterResizes (T : Traits κ υ) (capacity : BitVec 32) : Nat → Hashmap κ υ → Prop
  | start {s : Hashmap κ υ} : (construct T capacity).result = .ok s → AfterResizes T capacity 0 s
  | step {s s' : Hashmap κ υ} {n : Nat} {op : Op κ υ} {answer : Answer υ} :
      AfterResizes T capacity n s → (step T s op).result = .ok (answer, s') →
      AfterResizes T capacity (n + (step T s op).log.length) s'
  | resize {s s' : Hashmap κ υ} {n : Nat} :
      AfterResizes T capacity n s → (resize T s).result = .ok s' →
      AfterResizes T capacity (n + (resize T s).log.length) s'

variable {capacity : BitVec 32} {n : Nat}

/-- Every state is the constructed table, grown `n` times. -/
theorem AfterResizes.shape (after : AfterResizes T capacity n s) :
    s.Shaped ∧ s.capacity = capacity <<< n := by
  induction after with
  | @start s constructed =>
      by_cases zero : capacity = 0#32
      · subst zero
        rw [construct_zero] at constructed
        cases constructed
      · rw [construct_eq T zero] at constructed
        cases constructed
        exact ⟨shaped_freshTable T zero, by simp [freshTable]⟩
  | @step s s' n op answer _ returned induction =>
      have grows := step_yields T s op _ returned
      refine ⟨grows.shaped induction.1, ?_⟩
      rw [grows.capacity_eq, induction.2, BitVec.shiftLeft_add]
  | @resize s s' n _ returned induction =>
      have grows := resize_yields T s _ returned
      refine ⟨grows.shaped induction.1, ?_⟩
      rw [grows.capacity_eq, induction.2, BitVec.shiftLeft_add]

omit [BEq κ] in
/-- Clearing a table with the geometry of its capacity constructs it again. -/
theorem clear_eq_freshTable (shape : s.Shaped) : clear T s = freshTable T s.capacity := by
  refine Hashmap.ext rfl rfl shape.maxOffset_eq shape.bitMask_eq ?_
  rw [memory_clear, s.allocated]
  simp [freshTable, calloc, wholeBlocks_eq]

/-- Reachable maps among them. -/
theorem Reachable.afterResizes (reachable : Reachable T capacity s) :
    ∃ n, AfterResizes T capacity n s := by
  induction reachable with
  | construct constructed => exact ⟨0, .start constructed⟩
  | step _ _ returned induction =>
      obtain ⟨n, after⟩ := induction
      exact ⟨_, after.step returned⟩

/-! ## Growing an empty table -/

omit [BEq κ] in
theorem livePairs_freshTable (T : Traits κ υ) (capacity : BitVec 32) :
    (freshTable T capacity).livePairs = [] := by
  rw [livePairs, List.flatMap_eq_nil_iff]
  intro block member
  rw [List.eq_of_mem_replicate member]
  simp [Block.livePairs, Block.pairsWhere, Block.zero]

/-- `_resize` makes the constructed table of a capacity that of the doubled capacity. -/
theorem resize_freshTable (T : Traits κ υ) {capacity : BitVec 32} (nonzero : capacity <<< 1 ≠ 0#32) :
    resize T (freshTable T capacity) = ⟨[capacity], .ok (freshTable T (capacity <<< 1))⟩ := by
  have inside := log2_lt nonzero
  have doubled_eq : doubled T (freshTable T capacity) = freshTable T (capacity <<< 1) :=
    Hashmap.ext rfl rfl rfl (resizeMask_eq_constructorMask inside) rfl
  rw [resize, callDepth, resizeWithin, foldlM_rehashBlock, livePairs_freshTable, doubled_eq]
  change Execution.emit capacity >>= (fun _ => if (log2 (capacity <<< 1)).toNat < 32 then _ else _) = _
  rw [if_pos inside]
  rfl

/-- `n` calls of `_resize` in a row. -/
def resizeTimes (T : Traits κ υ) : Nat → Hashmap κ υ → Exec (Hashmap κ υ)
  | 0, s => pure s
  | n + 1, s => do
      let s ← resize T s
      resizeTimes T n s

theorem resizeTimes_freshTable (T : Traits κ υ) (n : Nat) :
    ∀ capacity : BitVec 32, capacity.toNat ≠ 0 → capacity.toNat * 2 ^ n < 2 ^ 32 →
      resizeTimes T n (freshTable T capacity) =
        ⟨doublings capacity n, .ok (freshTable T (capacity <<< n))⟩ := by
  induction n with
  | zero =>
      intro capacity _ _
      simp only [resizeTimes, BitVec.shiftLeft_zero]
      rfl
  | succ n induction =>
      intro capacity positive bounded
      obtain ⟨doubles, rest⟩ := doubles_of_bounded bounded
      have doubled_toNat := shiftLeft_one_toNat doubles
      rw [resizeTimes, resize_freshTable T (shiftLeft_one_ne_zero positive doubles)]
      have later := induction (capacity <<< 1) (by omega) (by rwa [doubled_toNat])
      rw [← BitVec.shiftLeft_add, Nat.add_comm] at later
      simp only [bind_eq, Execution.bind, later]
      rfl

theorem AfterResizes.times (after : AfterResizes T capacity n s) {more : Nat} {s' : Hashmap κ υ}
    (returned : (resizeTimes T more s).result = .ok s') :
    AfterResizes T capacity (n + (resizeTimes T more s).log.length) s' := by
  induction more generalizing n s with
  | zero =>
      obtain rfl : s = s' := by simpa [resizeTimes] using returned
      exact after
  | succ more induction =>
      obtain ⟨middle, resized, rest⟩ := Execution.result_bind_eq_ok returned
      rw [resizeTimes, Execution.log_bind_of_ok resized, List.length_append, ← Nat.add_assoc]
      exact induction (after.resize resized) rest

/-- In every state that `n` doublings lead to, the geometry is what the constructor computes for the
capacity doubled `n` times, and `clear` leaves what it constructs. -/
theorem geometry_after_resizes (T : Traits κ υ) (capacity : BitVec 32)
    (positive : 1 ≤ capacity.toNat) (n : Nat) (bounded : capacity.toNat * 2 ^ n < 2 ^ 32) :
    (∀ v : BitVec 32, v ≠ 0#32 → (log2 v).toNat = Nat.log 2 v.toNat) ∧
      (∃ s, (construct T capacity >>= resizeTimes T n).result = .ok s ∧
        (construct T capacity >>= resizeTimes T n).log.length = n ∧ AfterResizes T capacity n s) ∧
      (∀ s, AfterResizes T capacity n s → ∃ fresh,
        (construct T (BitVec.ofNat 32 (capacity.toNat * 2 ^ n))).result = .ok fresh ∧
          (s.capacity, s.maxOffset, s.bitMask) =
            (fresh.capacity, fresh.maxOffset, fresh.bitMask) ∧
          s.capacity.toNat = capacity.toNat * 2 ^ n ∧
          s.bitMask.toNat = 2 ^ Nat.log 2 (capacity.toNat * 2 ^ n) - 1) ∧
      (∀ m s, AfterResizes T capacity m s → (construct T s.capacity).result = .ok (clear T s)) ∧
      ∀ s, Reachable T capacity s → ∃ m, AfterResizes T capacity m s := by
  have nonzero : capacity ≠ 0#32 := by
    rintro rfl
    simp at positive
  refine ⟨fun v => log2_toNat, ?_, ?_, ?_, fun s => Reachable.afterResizes⟩
  · have grown := resizeTimes_freshTable T n capacity (by omega) bounded
    have start : AfterResizes T capacity 0 (freshTable T capacity) := by
      apply AfterResizes.start
      rw [construct_eq T nonzero]
      rfl
    have after := start.times (by rw [grown])
    rw [grown, length_doublings, Nat.zero_add] at after
    rw [construct_eq T nonzero, pure_bind, grown]
    exact ⟨_, rfl, length_doublings _ _, after⟩
  · intro s after
    obtain ⟨shape, capacity_eq⟩ := after.shape
    have shifted : capacity <<< n = BitVec.ofNat 32 (capacity.toNat * 2 ^ n) := by
      apply BitVec.eq_of_toNat_eq
      rw [BitVec.toNat_shiftLeft, Nat.shiftLeft_eq, BitVec.toNat_ofNat]
    have toNat_eq : s.capacity.toNat = capacity.toNat * 2 ^ n := by
      rw [capacity_eq, shifted, BitVec.toNat_ofNat, Nat.mod_eq_of_lt bounded]
    rw [← shifted, ← capacity_eq, construct_eq T shape.capacity_ne]
    refine ⟨_, rfl, ?_, toNat_eq, ?_⟩
    · rw [shape.maxOffset_eq, shape.bitMask_eq]
      rfl
    · rw [shape.bitMask_eq, constructorMask_toNat (log2_lt shape.capacity_ne),
        log2_toNat shape.capacity_ne, toNat_eq]
  · intro m s after
    have shape := after.shape.1
    rw [construct_eq T shape.capacity_ne, clear_eq_freshTable shape]
    rfl

end Calls

theorem geometry_after_resizes_three :
    ∃ s : Hashmap (BitVec 64) (BitVec 64), AfterResizes tempHash 49#32 3 s ∧
      s.capacity.toNat = 392 ∧ s.bitMask.toNat = 255 ∧
      (construct tempHash s.capacity).result = .ok (clear tempHash s) := by
  obtain ⟨-, ⟨s, -, -, after⟩, geometry, cleared, -⟩ :=
    geometry_after_resizes tempHash 49#32 (by decide) 3 (by decide)
  obtain ⟨-, -, -, capacity_eq, mask_eq⟩ := geometry s after
  refine ⟨s, after, capacity_eq, ?_, cleared 3 s after⟩
  rw [mask_eq]
  decide +kernel

end RobinHoodHashmap
