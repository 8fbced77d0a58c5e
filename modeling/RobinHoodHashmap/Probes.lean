import RobinHoodHashmap.Expansion

/-!
# Key comparisons

The needles spare a search the keys that differ in the home slot or in the tag.  An instrumented
search logs the key of every pair it compares, in order; what it logs is a function of the stored keys
and the hash, so the cost of a lookup can be read off the table.
-/

namespace RobinHoodHashmap

open Avx2 Execution Hashmap Selection

variable {κ υ : Type}

/-! ## Instrumented searches -/

section Instrumented

variable [BEq κ]

/-- `findLoop`, logging `it->key` at each comparison. -/
def findLoopLogged (block : Block κ υ) (key : κ) (slotOf : Fin 16 → Fin 32) :
    Nat → Lanes → Execution κ Fault (Option (Fin 32))
  | 0, _ => fault .outOfFuel
  | rounds + 1, needleCmpRes =>
      if testzSi256 needleCmpRes needleCmpRes then pure none
      else
        let idx := getFirstByteIndex needleCmpRes >>> 1
        if inside : idx.toNat < 16 then do
          let lane : Fin 16 := ⟨idx.toNat, inside⟩
          emit (block.pair (slotOf lane)).key
          if key == (block.pair (slotOf lane)).key then pure (some (slotOf lane))
          else findLoopLogged block key slotOf rounds (clearLane needleCmpRes lane)
        else fault .outOfBounds

/-- `searchBlock`, logging the keys compared. -/
def searchBlockLogged (block : Block κ υ) (key : κ) (homeIndex hash : BitVec 64) :
    Execution κ Fault (Option (Fin 32)) := do
  let res ← findLoopLogged block key Block.firstSlot 17
    (cmpeqEpi16 block.firstHeaders (getFirstNeedle (homeIndex.setWidth 16) hash))
  match res with
  | some slot => pure (some slot)
  | none =>
      findLoopLogged block key Block.secondSlot 17
        (cmpeqEpi16 block.secondHeaders (getSecondNeedle (homeIndex.setWidth 16) hash))

/-- `find`, logging the keys compared. -/
def findLogged (T : Traits κ υ) (s : Hashmap κ υ) (key : κ) : Execution κ Fault (Option Place) := do
  let hash := T.hasher key
  let home := home hash s.bitMask
  let nth := (nthHeaderBlock home).toNat
  let block ← silently (headerBlock T s nth)
  let res ← searchBlockLogged block key (homeIndex home) hash
  pure (res.map (Place.mk nth))

end Instrumented

/-! ## Instrumentation changes no answer -/

section Erasure

variable [BEq κ]

theorem result_findLoopLogged (block : Block κ υ) (key : κ) (slotOf : Fin 16 → Fin 32) (rounds : Nat)
    (needleCmpRes : Lanes) : (findLoopLogged block key slotOf rounds needleCmpRes).result =
      (findLoop block key slotOf rounds needleCmpRes).result := by
  induction rounds generalizing needleCmpRes with
  | zero => rfl
  | succ rounds induction =>
      rw [findLoopLogged, findLoop]
      by_cases empty : testzSi256 needleCmpRes needleCmpRes
      · rw [if_pos empty, if_pos empty]
        rfl
      · rw [if_neg empty, if_neg empty]
        by_cases inside : (getFirstByteIndex needleCmpRes >>> 1).toNat < 16
        · simp only [inside, dite_true, result_emit_bind]
          by_cases hit : key == (block.pair (slotOf ⟨_, inside⟩)).key
          · rw [if_pos hit, if_pos hit]
            rfl
          · rw [if_neg hit, if_neg hit]
            exact induction _
        · simp only [inside, dite_false]
          rfl

theorem result_searchBlockLogged (block : Block κ υ) (key : κ) (homeIndex hash : BitVec 64) :
    (searchBlockLogged block key homeIndex hash).result =
      (searchBlock block key homeIndex hash).result := by
  refine result_bind_congr (result_findLoopLogged _ _ _ _ _) fun res => ?_
  cases res with
  | some slot => rfl
  | none => exact result_findLoopLogged _ _ _ _ _

theorem result_findLogged (T : Traits κ υ) (s : Hashmap κ υ) (key : κ) :
    (findLogged T s key).result = (find T s key).result := by
  have addressed : (silently (headerBlock T s (s.homeBlock T key)) : Execution κ Fault _).result =
      (headerBlock T s (s.homeBlock T key)).result := rfl
  refine result_bind_congr addressed fun block => ?_
  exact result_bind_congr (result_searchBlockLogged _ _ _ _) fun res => rfl

end Erasure

/-! ## What is compared -/

section Compared

variable [BEq κ] (block : Block κ υ) (key : κ)

theorem log_findLoopLogged (slotOf : Fin 16 → Fin 32) (rounds : Nat) (selected : Fin 16 → Bool)
    (bounded : ∀ lane, selected lane = true → 16 ≤ rounds + lane.val) :
    (findLoopLogged block key slotOf (rounds + 1) (laneMask selected)).log =
      upTo (key == ·) (((List.finRange 16).filter selected).map
        fun lane => (block.pair (slotOf lane)).key) := by
  have finished : ∀ {rounds : Nat} {selected : Fin 16 → Bool}, (∀ lane, selected lane = false) →
      (findLoopLogged block key slotOf (rounds + 1) (laneMask selected)).log =
        upTo (key == ·) (((List.finRange 16).filter selected).map
          fun lane => (block.pair (slotOf lane)).key) := by
    intro rounds selected empty
    have none_selected : (List.finRange 16).filter selected = [] := by
      simp [List.filter_eq_nil_iff, empty]
    rw [findLoopLogged, if_pos ((testzSi256_laneMask selected).mpr empty), none_selected]
    rfl
  induction rounds generalizing selected with
  | zero =>
      refine finished fun lane => ?_
      by_contra chosen
      have := bounded lane (by simpa using chosen)
      omega
  | succ rounds induction =>
      cases found : Fin.find? selected with
      | none => exact finished (Fin.find?_eq_none_iff.mp found)
      | some lane =>
          obtain ⟨chosen, least⟩ := Fin.find?_eq_some_iff.mp found
          have nonempty : ¬testzSi256 (laneMask selected) (laneMask selected) = true := by
            rw [testzSi256_laneMask]
            intro empty
            simp [empty lane] at chosen
          have idx : (getFirstByteIndex (laneMask selected) >>> 1).toNat = lane.val := by
            rw [getFirstByteIndex_half, firstLane_eq_of_least chosen least]
          rw [findLoopLogged, if_neg nonempty, filter_finRange_eq_cons chosen least, List.map_cons,
            upTo]
          simp only [idx, lane.isLt, dite_true, log_emit_bind]
          by_cases hit : key == (block.pair (slotOf lane)).key
          · rw [if_pos hit, if_pos hit]
            rfl
          · rw [if_neg hit, if_neg hit, clearLane_laneMask, induction]
            intro other selected_other
            have after := lt_of_update_least least selected_other
            have := bounded lane chosen
            omega

theorem needleLane_firstSlot (homeIdx : BitVec 16) (hash : BitVec 64) (lane : Fin 16) :
    needleLane homeIdx hash (Block.firstSlot lane) = getFirstNeedle homeIdx hash lane :=
  dif_pos lane.isLt

theorem needleLane_secondSlot (homeIdx : BitVec 16) (hash : BitVec 64) (lane : Fin 16) :
    needleLane homeIdx hash (Block.secondSlot lane) = getSecondNeedle homeIdx hash lane :=
  (dif_neg (by simp)).trans (congrArg _ (Fin.ext (by simp)))

/-- Keys of the slots whose header is their lane of the needle pair. -/
def Block.needled (homeIdx : BitVec 16) (hash : BitVec 64) : List κ :=
  ((List.finRange 32).filter fun slot => block.header slot == needleLane homeIdx hash slot).map
    fun slot => (block.pair slot).key

/-- The two-stage search compares the needled keys in slot order until one of them matches. -/
theorem log_searchBlockLogged (homeIndex hash : BitVec 64) :
    (searchBlockLogged block key homeIndex hash).log =
      upTo (key == ·) (block.needled (homeIndex.setWidth 16) hash) := by
  have slots := finRange_split (m := 16) (n := 16) rfl Block.firstSlot_val Block.secondSlot_val
  rw [Block.needled, slots, List.filter_append, List.map_append, List.filter_map, List.filter_map,
    List.map_map, List.map_map, searchBlockLogged]
  simp only [cmpeqEpi16_eq_laneMask, Function.comp_def, needleLane_firstSlot, needleLane_secondSlot]
  set needled := fun lane => block.header (Block.firstSlot lane) ==
    getFirstNeedle (homeIndex.setWidth 16) hash lane with needled_eq
  have first := result_findLoopLogged block key Block.firstSlot 17 (laneMask needled)
  rw [findLoop_laneMask _ _ _ 16 _ (by omega), result_pure] at first
  cases found : Fin.find? fun lane => needled lane && key == (block.pair (Block.firstSlot lane)).key with
  | some lane =>
      rw [found] at first
      obtain ⟨chosen, hit⟩ := Bool.and_eq_true_iff.mp (Fin.find?_eq_some_iff.mp found).1
      have compared : (block.pair (Block.firstSlot lane)).key ∈ ((List.finRange 16).filter needled).map
          fun lane => (block.pair (Block.firstSlot lane)).key :=
        List.mem_map_of_mem (List.mem_filter.mpr ⟨List.mem_finRange lane, chosen⟩)
      rw [upTo_append_of_hit compared hit, ← log_findLoopLogged _ _ _ 16 _ (by omega)]
      exact (log_bind_of_ok first _).trans (List.append_nil _)
  | none =>
      rw [found] at first
      have misses : ∀ other ∈ ((List.finRange 16).filter needled).map
          fun lane => (block.pair (Block.firstSlot lane)).key, (key == other) = false := by
        intro other member
        obtain ⟨lane, selected, rfl⟩ := List.mem_map.mp member
        simpa [(List.mem_filter.mp selected).2] using Fin.find?_eq_none_iff.mp found lane
      have first_log := log_findLoopLogged block key Block.firstSlot 16 needled (by omega)
      rw [upTo_of_no_hit misses] at first_log
      rw [upTo_append_of_no_hit misses, ← log_findLoopLogged _ _ _ 16 _ (by omega), ← first_log]
      exact log_bind_of_ok first _

end Compared

/-! ## On a table -/

theorem mod_two_pow_eq_iff {m n exponent : Nat} : m % 2 ^ exponent = n % 2 ^ exponent ↔
    ∀ bit < exponent, m.testBit bit = n.testBit bit := by
  constructor
  · intro same bit inside
    have bits := congrArg (Nat.testBit · bit) same
    simpa [inside] using bits
  · intro same
    apply Nat.eq_of_testBit_eq
    intro bit
    rw [Nat.testBit_mod_two_pow, Nat.testBit_mod_two_pow]
    by_cases inside : bit < exponent
    · rw [same bit inside]
    · simp [inside]

section Table

variable {T : Traits κ υ} {s : Hashmap κ υ}

/-- Keys whose hashes agree in the bits of the mask and of the tag. -/
def Confusable (T : Traits κ υ) (s : Hashmap κ υ) (key other : κ) : Prop :=
  (T.hasher other).toNat % 2 ^ max s.exponent 11 = (T.hasher key).toNat % 2 ^ max s.exponent 11

instance (key other : κ) : Decidable (Confusable T s key other) := by
  unfold Confusable
  infer_instance

/-- Keys are confusable when the home block of one is the home block of the other and their headers in a
slot of it are equal. -/
theorem confusable_iff (addressable : s.Addressable) (slot : Fin 32) (key other : κ) :
    Confusable T s key other ↔ s.homeBlock T other = s.homeBlock T key ∧
      headerOf slot (home (T.hasher other) s.bitMask) (T.hasher other) =
        headerOf slot (home (T.hasher key) s.bitMask) (T.hasher key) := by
  have wide := addressable.exponent_ge
  -- The block index and the home slot together are the bits of the mask.
  have masked : (T.hasher other).toNat % 2 ^ s.exponent = (T.hasher key).toNat % 2 ^ s.exponent ↔
      s.homeBlock T other = s.homeBlock T key ∧
        (T.hasher other).toNat % 2 ^ s.exponent % 32 = (T.hasher key).toNat % 2 ^ s.exponent % 32 := by
    rw [addressable.homeBlock_eq, addressable.homeBlock_eq, blockUnder_eq, blockUnder_eq]
    omega
  rw [headerOf_eq_iff, home_toNat addressable.bitMask_eq, home_toNat addressable.bitMask_eq, ← and_assoc,
    ← masked, Confusable, mod_two_pow_eq_iff, mod_two_pow_eq_iff]
  constructor
  · intro same
    exact ⟨fun bit inside => same bit (by omega), fun bit _ high => same bit (by omega)⟩
  · rintro ⟨same_home, same_tag⟩ bit inside
    by_cases low : bit < s.exponent
    · exact same_home bit low
    · exact same_tag bit (by omega) (by omega)

theorem needled_homeBlock (invariant : Invariant T s) {key : κ} {block : Block κ υ}
    (block_eq : s.memory[s.homeBlock T key]? = some block) :
    block.needled ((homeIndex (home (T.hasher key) s.bitMask)).setWidth 16) (T.hasher key) =
      s.keys.filter fun other => Confusable T s key other := by
  have expected : ∀ slot, (block.header slot ==
      needleLane ((homeIndex (home (T.hasher key) s.bitMask)).setWidth 16) (T.hasher key) slot) =
        (decide (Confusable T s key (block.pair slot).key) && block.header slot != 0#16) := by
    intro slot
    rw [needleLane_eq_headerOf, Bool.eq_iff_iff]
    by_cases free : block.header slot = 0#16
    · simp [free, (headerOf_ne_zero slot (home (T.hasher key) s.bitMask) (T.hasher key)).symm]
    · obtain ⟨header_eq, home_eq⟩ := invariant.slots _ block block_eq slot free
      have confusable := (confusable_iff invariant.toAddressable slot key (block.pair slot).key).trans
        (and_iff_right home_eq)
      rw [header_eq]
      simp [confusable, headerOf_ne_zero]
  have homed : s.entries.filter (fun pair => Confusable T s key pair.key) =
      block.entries.filter fun pair => Confusable T s key pair.key := by
    rw [← pairsHomedAt_entries invariant block_eq, pairsHomedAt, List.filter_filter]
    apply List.filter_congr
    intro pair _
    have same_block : Confusable T s key pair.key → s.homeBlock T pair.key = s.homeBlock T key :=
      fun confusable => ((confusable_iff invariant.toAddressable 0 key pair.key).mp confusable).1
    rw [Bool.eq_iff_iff, Bool.and_eq_true, decide_eq_true_eq, decide_eq_true_eq]
    exact ⟨fun confusable => ⟨confusable, same_block confusable⟩, And.left⟩
  rw [Block.needled, Hashmap.keys, List.filter_map, Function.comp_def, homed, Block.entries, Block.pairsWhere,
    List.filter_map, List.filter_filter, List.map_map]
  simp only [expected]
  rfl

variable [BEq κ]

theorem log_findLogged (invariant : Invariant T s) (key : κ) :
    (findLogged T s key).log = upTo (key == ·) (s.keys.filter fun other => Confusable T s key other) := by
  obtain ⟨block, block_eq⟩ := invariant.exists_home T key
  have addressed : headerBlock T s (nthHeaderBlock (home (T.hasher key) s.bitMask)).toNat = pure block :=
    headerBlock_eq T block_eq
  rw [← needled_homeBlock invariant block_eq, ← log_searchBlockLogged, findLogged]
  simp only [addressed, silently_pure, pure_bind]
  rw [← map_eq_pure_bind, log_map]

/-- On every reachable map a lookup compares each key whose hash agrees with its own in the bits of the
mask and of the tag at most once, no other key, and all of them before it answers null. -/
theorem find_comparisons [LawfulBEq κ] {capacity : BitVec 32} (reachable : Reachable T capacity s)
    (capacity_ge : 32 ≤ s.capacity.toNat) (key : κ) :
    (findLogged T s key).result = (find T s key).result ∧
      (findLogged T s key).log =
        upTo (key == ·) (s.keys.filter fun other => Confusable T s key other) ∧
      (findLogged T s key).log.Nodup ∧
      (key ∉ s.keys →
        (findLogged T s key).log = s.keys.filter fun other => Confusable T s key other) := by
  have invariant := reachable.invariant (reachable.start_ge capacity_ge)
  have log_eq := log_findLogged invariant key
  refine ⟨result_findLogged T s key, log_eq, ?_, fun absent => ?_⟩
  · rw [log_eq]
    exact (invariant.keys_nodup.filter _).sublist (upTo_sublist _ _)
  · rw [log_eq]
    apply upTo_of_no_hit
    intro other member
    rw [beq_eq_false_iff_ne]
    rintro rfl
    exact absent (List.mem_filter.mp member).1

end Table

/-- Of three keys in one block, the two with the header of the key looked up are compared. -/
theorem find_comparisons_twins :
    ∃ s, Reachable tempHash 32#32 s ∧ s.keys = [2049#64, 2#64, 4097#64] ∧
      (findLogged tempHash s 1#64).log = [2049#64, 4097#64] ∧
      (findLogged tempHash s 1#64).result = (find tempHash s 1#64).result := by
  have no_wrap : NoWrap (session tempHash 32#32
      [.insert 2049#64 7#64, .insert 2#64 8#64, .insert 4097#64 9#64]) := by decide +kernel
  have outcome : (session tempHash 32#32
      [.insert 2049#64 7#64, .insert 2#64 8#64, .insert 4097#64 9#64]).result.map
        (fun outcome => (outcome.2.capacity, outcome.2.keys)) =
          .ok (32#32, [2049#64, 2#64, 4097#64]) := by decide +kernel
  obtain ⟨s, returned, reachable, -⟩ := session_reachable tempHash (by decide) no_wrap
  rw [returned] at outcome
  obtain ⟨capacity_eq, keys_eq⟩ : s.capacity = 32#32 ∧ s.keys = [2049#64, 2#64, 4097#64] := by
    simpa [Except.map] using outcome
  have exponent_eq : s.exponent = 5 := by
    rw [exponent, capacity_eq]
    decide +kernel
  obtain ⟨result_eq, -, -, all⟩ :=
    find_comparisons reachable (by rw [capacity_eq]; decide) 1#64
  have absent : 1#64 ∉ s.keys := by
    rw [keys_eq]
    decide
  refine ⟨s, reachable, keys_eq, ?_, result_eq⟩
  rw [all absent, keys_eq]
  simp only [Confusable, exponent_eq]
  decide

end RobinHoodHashmap
