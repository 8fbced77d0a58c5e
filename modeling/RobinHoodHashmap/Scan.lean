import RobinHoodHashmap.Hashmap
import RobinHoodHashmap.Selection

/-!
# Scans of a block

The vector loops of the source visit lanes through a byte mask and clear them one by one.  Each
is equal to a scan of the thirty-two slots in ascending order: the pair search returns the least
matching slot, the free-slot search the least empty one, and the rehash loops visit exactly the
slots whose occupancy bit is set.
-/

namespace RobinHoodHashmap

open Avx2 Selection

variable {κ υ : Type}

namespace Block

@[simp] theorem firstSlot_val (lane : Fin 16) : (firstSlot lane).val = lane := rfl

@[simp] theorem secondSlot_val (lane : Fin 16) : (secondSlot lane).val = 16 + lane :=
  Nat.add_comm _ _

/-- The least slot whose header is the searched header and whose key is the searched key. -/
def search [BEq κ] (block : Block κ υ) (key : κ) (home hash : BitVec 64) : Option (Fin 32) :=
  Fin.find? fun slot =>
    block.header slot == headerOf slot home hash && key == (block.pair slot).key

/-- The least slot whose header is zero. -/
def freeSlot (block : Block κ υ) : Option (Fin 32) :=
  Fin.find? fun slot => block.header slot == 0#16

/-- Pairs of the slots selected by a predicate, in slot order. -/
def pairsWhere (block : Block κ υ) (selected : Fin 32 → Bool) : List (KeyValuePair κ υ) :=
  ((List.finRange 32).filter selected).map block.pair

/-- Pairs of the slots whose occupancy bit is set, as the rehash scans see them. -/
def livePairs (block : Block κ υ) : List (KeyValuePair κ υ) :=
  block.pairsWhere fun slot => (block.header slot).getLsbD 0

end Block

/-! ## Pair search -/

theorem getFirstByteIndex_half (selected : Fin 16 → Bool) :
    (getFirstByteIndex (laneMask selected) >>> 1).toNat = firstLane selected :=
  tzcntU32_movemaskEpi8_half selected

/-- Clearing a lane that fails the key test does not change the first lane that passes it. -/
private theorem find?_update_of_miss {n : Nat} {selected test : Fin n → Bool} {lane : Fin n}
    (miss : test lane = false) :
    (Fin.find? fun i => Function.update selected lane false i && test i) =
      Fin.find? fun i => selected i && test i := by
  congr 1
  funext i
  by_cases same : i = lane
  · subst i
    simp [miss]
  · simp [same]

/-- A lane index is below sixteen, so no lane is selected once every round has passed. -/
private theorem selected_eq_false_of_bounded {selected : Fin 16 → Bool}
    (bounded : ∀ lane, selected lane = true → 16 ≤ 0 + lane.val) (lane : Fin 16) :
    selected lane = false := by
  by_contra chosen
  have := bounded lane (by simpa using chosen)
  omega

private theorem findLoop_of_empty [BEq κ] (block : Block κ υ) (key : κ) (slotOf : Fin 16 → Fin 32)
    (rounds : Nat) {selected : Fin 16 → Bool} (empty : ∀ lane, selected lane = false) :
    findLoop block key slotOf (rounds + 1) (laneMask selected) =
      pure ((Fin.find? fun lane => selected lane && key == (block.pair (slotOf lane)).key).map
        slotOf) := by
  rw [findLoop, if_pos ((testzSi256_laneMask selected).mpr empty),
    Fin.find?_eq_none_iff.mpr (by simp [empty])]
  rfl

/-- The search loop returns the least selected lane that passes the key test.  A round clears the
least lane, so with `rounds + 1` tests left every selected lane is at least `16 - rounds`. -/
theorem findLoop_laneMask [BEq κ] (block : Block κ υ) (key : κ) (slotOf : Fin 16 → Fin 32)
    (rounds : Nat) (selected : Fin 16 → Bool)
    (bounded : ∀ lane, selected lane = true → 16 ≤ rounds + lane.val) :
    findLoop block key slotOf (rounds + 1) (laneMask selected) =
      pure ((Fin.find? fun lane => selected lane && key == (block.pair (slotOf lane)).key).map
        slotOf) := by
  induction rounds generalizing selected with
  | zero =>
      exact findLoop_of_empty block key slotOf 0 (selected_eq_false_of_bounded bounded)
  | succ rounds induction =>
      cases found : Fin.find? selected with
      | none =>
          exact findLoop_of_empty block key slotOf (rounds + 1) (Fin.find?_eq_none_iff.mp found)
      | some lane =>
          obtain ⟨chosen, least⟩ := Fin.find?_eq_some_iff.mp found
          have nonempty : ¬testzSi256 (laneMask selected) (laneMask selected) = true := by
            rw [testzSi256_laneMask]
            intro empty
            simp [empty lane] at chosen
          have idx : (getFirstByteIndex (laneMask selected) >>> 1).toNat = lane.val := by
            rw [getFirstByteIndex_half, firstLane_eq_of_least chosen least]
          rw [findLoop, if_neg nonempty]
          simp only [idx, lane.isLt, dite_true]
          by_cases hit : key == (block.pair (slotOf lane)).key
          · have first_hit : (Fin.find? fun lane =>
                selected lane && key == (block.pair (slotOf lane)).key) = some lane := by
              refine Fin.find?_eq_some_iff.mpr ⟨by simp [chosen, hit], fun earlier before => ?_⟩
              simp [least earlier before]
            rw [if_pos hit, first_hit]
            rfl
          · rw [if_neg hit, clearLane_laneMask, induction]
            · rw [find?_update_of_miss (by simpa using hit)]
            · intro other selected_other
              have after := lt_of_update_least least selected_other
              have := bounded lane chosen
              omega

/-- A slot matches when its header is its lane of the needle pair and its key is the searched one. -/
def Block.Matches [BEq κ] (block : Block κ υ) (key : κ) (homeIdx : BitVec 16) (hash : BitVec 64)
    (slot : Fin 32) : Bool :=
  block.header slot == needleLane homeIdx hash slot && key == (block.pair slot).key

theorem searchBlock_eq_find [BEq κ] (block : Block κ υ) (key : κ) (homeIndex hash : BitVec 64) :
    searchBlock block key homeIndex hash =
      pure (Fin.find? (block.Matches key (homeIndex.setWidth 16) hash)) := by
  have first : ∀ lane, needleLane (homeIndex.setWidth 16) hash (Block.firstSlot lane) =
      getFirstNeedle (homeIndex.setWidth 16) hash lane :=
    fun lane => dif_pos lane.isLt
  have second : ∀ lane, needleLane (homeIndex.setWidth 16) hash (Block.secondSlot lane) =
      getSecondNeedle (homeIndex.setWidth 16) hash lane :=
    fun lane => (dif_neg (by simp)).trans (congrArg _ (Fin.ext (by simp)))
  rw [find?_split (m := 16) (n := 16) rfl Block.firstSlot_val Block.secondSlot_val]
  simp only [searchBlock, findKeyValuePair, findKeyValuePairSecond, cmpeqEpi16_eq_laneMask,
    Block.Matches, first, second]
  rw [findLoop_laneMask _ _ _ 16 _ (by omega), findLoop_laneMask _ _ _ 16 _ (by omega)]
  simp only [pure_bind, Block.firstHeaders, Block.secondHeaders]
  cases Fin.find? fun lane : Fin 16 =>
      block.header (Block.firstSlot lane) == getFirstNeedle (homeIndex.setWidth 16) hash lane &&
        key == (block.pair (Block.firstSlot lane)).key with
  | some lane => rfl
  | none => rfl

theorem searchBlock_eq [BEq κ] (block : Block κ υ) (key : κ) (home hash : BitVec 64) :
    searchBlock block key (homeIndex home) hash = pure (block.search key home hash) := by
  have matches_eq : block.Matches key ((homeIndex home).setWidth 16) hash = fun slot =>
      block.header slot == headerOf slot home hash && key == (block.pair slot).key := by
    funext slot
    rw [Block.Matches, needleLane_eq_headerOf]
  rw [searchBlock_eq_find, matches_eq, Block.search]

/-! ## Free-slot search -/

theorem emptyIndex_toNat (block : Block κ υ) :
    (emptyIndex block).toNat = block.freeSlot.elim 32 Fin.val := by
  have zero_lanes : ∀ lane : Fin 16, setzeroSi256 lane = 0#16 := fun _ => rfl
  have sixteen_iff : ∀ selected : Fin 16 → Bool,
      getFirstByteIndex (laneMask selected) >>> 1 = 16#32 ↔ firstLane selected = 16 := by
    intro selected
    rw [← getFirstByteIndex_half]
    constructor
    · intro same
      rw [same]
      rfl
    · intro same
      exact BitVec.eq_of_toNat_eq same
  have upper_le : ∀ selected : Fin 16 → Bool, firstLane selected ≤ 16 := by
    intro selected
    rw [firstLane]
    cases Fin.find? selected with
    | none => exact Nat.le_refl _
    | some lane => exact lane.isLt.le
  rw [Block.freeSlot, find?_split (m := 16) (n := 16) rfl Block.firstSlot_val Block.secondSlot_val]
  simp only [emptyIndex, cmpeqEpi16_eq_laneMask, sixteen_iff, zero_lanes, Block.firstHeaders,
    Block.secondHeaders]
  split_ifs with full
  · rw [BitVec.toNat_add, getFirstByteIndex_half,
      Fin.find?_eq_none_iff.mpr ((firstLane_eq_sixteen_iff _).mp full)]
    have small := upper_le fun lane => block.header (Block.secondSlot lane) == 0#16
    rw [show (16#32).toNat = 16 by rfl, Nat.mod_eq_of_lt (by omega), firstLane]
    cases Fin.find? fun lane : Fin 16 => block.header (Block.secondSlot lane) == 0#16 with
    | none => rfl
    | some lane => simp
  · rw [getFirstByteIndex_half, firstLane]
    rw [firstLane] at full
    cases found : Fin.find? fun lane : Fin 16 => block.header (Block.firstSlot lane) == 0#16 with
    | none => simp [found] at full
    | some lane => simp

theorem emptyIndex_eq_full_iff (block : Block κ υ) :
    emptyIndex block = 32#32 ↔ block.freeSlot = none := by
  have value := emptyIndex_toNat block
  cases found : block.freeSlot with
  | none =>
      rw [found] at value
      simpa using BitVec.eq_of_toNat_eq value
  | some slot =>
      rw [found] at value
      simp only [reduceCtorEq, iff_false]
      intro full
      rw [full, BitVec.toNat_ofNat, Option.elim_some] at value
      have := slot.isLt
      omega

/-- The vector scans of a block are scans of its slots in ascending order: the pair search returns
the least matching slot and null when there is none, the free search the least slot whose header is
zero and `32` when there is none. -/
theorem scans_eq_scalar [BEq κ] (block : Block κ υ) (key : κ) (homeIndex hash : BitVec 64) :
    (∃ res, searchBlock block key homeIndex hash = pure res ∧
        (∀ slot, res = some slot ↔ block.Matches key (homeIndex.setWidth 16) hash slot = true ∧
          ∀ earlier < slot, block.Matches key (homeIndex.setWidth 16) hash earlier = false) ∧
        (res = none ↔ ∀ slot, block.Matches key (homeIndex.setWidth 16) hash slot = false)) ∧
      (∀ slot : Fin 32, (emptyIndex block).toNat = slot ↔
        block.header slot = 0#16 ∧ ∀ earlier < slot, block.header earlier ≠ 0#16) ∧
      (emptyIndex block = 32#32 ↔ ∀ slot, block.header slot ≠ 0#16) := by
  refine ⟨⟨_, searchBlock_eq_find block key homeIndex hash, fun slot => ?_, ?_⟩, fun slot => ?_, ?_⟩
  · exact Fin.find?_eq_some_iff.trans (by simp)
  · exact Fin.find?_eq_none_iff.trans (by simp)
  · have least : block.freeSlot = some slot ↔
        block.header slot = 0#16 ∧ ∀ earlier < slot, block.header earlier ≠ 0#16 :=
      Fin.find?_eq_some_iff.trans (by simp)
    rw [← least, emptyIndex_toNat]
    cases found : block.freeSlot with
    | none => simp [slot.isLt.ne']
    | some other => simp [Fin.ext_iff]
  · rw [emptyIndex_eq_full_iff, Block.freeSlot, Fin.find?_eq_none_iff]
    simp

/-! ## Rehash scan -/

/-- A haystack register: one in the selected lanes. -/
def bitLanes (selected : Fin 16 → Bool) : Lanes := fun lane => if selected lane then 1#16 else 0#16

private theorem cmpeqEpi16_bitLanes (selected : Fin 16 → Bool) :
    cmpeqEpi16 (bitLanes selected) (set1Epi16 1#16) = laneMask selected := by
  funext lane
  cases chosen : selected lane <;> simp [cmpeqEpi16, bitLanes, set1Epi16, laneMask, chosen]

private theorem clearLane_bitLanes (selected : Fin 16 → Bool) (lane : Fin 16) :
    clearLane (bitLanes selected) lane = bitLanes (Function.update selected lane false) := by
  funext other
  by_cases same : other = lane
  · subst other
    simp [clearLane, bitLanes]
  · simp [clearLane, bitLanes, same]

private theorem andEpi32_one (headers : Lanes) :
    andEpi32 headers (set1Epi16 1#16) = bitLanes fun lane => (headers lane).getLsbD 0 := by
  funext lane
  apply BitVec.eq_of_getLsbD_eq
  intro bit inside
  cases low : (headers lane).getLsbD 0 <;> by_cases zero : bit = 0 <;>
    simp_all [andEpi32, set1Epi16, bitLanes]

private theorem getFirstByteIndex_bitLanes (selected : Fin 16 → Bool) :
    (getFirstByteIndex (cmpeqEpi16 (bitLanes selected) (set1Epi16 1#16)) >>> 1).toNat =
      firstLane selected := by
  rw [cmpeqEpi16_bitLanes, getFirstByteIndex_half]

private theorem rehashLoop_of_empty (insertNew : Hashmap κ υ → κ → υ → Exec (Hashmap κ υ))
    (block : Block κ υ) (slotOf : Fin 16 → Fin 32) (rounds : Nat) {selected : Fin 16 → Bool}
    (empty : ∀ lane, selected lane = false) (s : Hashmap κ υ) :
    rehashLoop insertNew block slotOf (rounds + 1) (bitLanes selected) s =
      (((List.finRange 16).filter selected).map fun lane => block.pair (slotOf lane)).foldlM
        (fun s pair => insertNew s pair.key pair.value) s := by
  have idx : ¬(getFirstByteIndex (cmpeqEpi16 (bitLanes selected) (set1Epi16 1#16)) >>>
      1).toNat < 16 := by
    rw [getFirstByteIndex_bitLanes, (firstLane_eq_sixteen_iff _).mpr empty]
    decide
  have none_selected : (List.finRange 16).filter selected = [] := by
    simp [List.filter_eq_nil_iff, empty]
  rw [rehashLoop, none_selected]
  exact dif_neg idx

theorem rehashLoop_bitLanes (insertNew : Hashmap κ υ → κ → υ → Exec (Hashmap κ υ))
    (block : Block κ υ) (slotOf : Fin 16 → Fin 32) (rounds : Nat) (selected : Fin 16 → Bool)
    (bounded : ∀ lane, selected lane = true → 16 ≤ rounds + lane.val) (s : Hashmap κ υ) :
    rehashLoop insertNew block slotOf (rounds + 1) (bitLanes selected) s =
      (((List.finRange 16).filter selected).map fun lane => block.pair (slotOf lane)).foldlM
        (fun s pair => insertNew s pair.key pair.value) s := by
  induction rounds generalizing selected s with
  | zero =>
      exact rehashLoop_of_empty insertNew block slotOf 0 (selected_eq_false_of_bounded bounded) s
  | succ rounds induction =>
      cases found : Fin.find? selected with
      | none =>
          exact rehashLoop_of_empty insertNew block slotOf (rounds + 1)
            (Fin.find?_eq_none_iff.mp found) s
      | some lane =>
          obtain ⟨chosen, least⟩ := Fin.find?_eq_some_iff.mp found
          have idx : (getFirstByteIndex (cmpeqEpi16 (bitLanes selected) (set1Epi16 1#16)) >>>
              1).toNat = lane.val := by
            rw [getFirstByteIndex_bitLanes, firstLane_eq_of_least chosen least]
          rw [rehashLoop, filter_finRange_eq_cons chosen least]
          simp only [idx, lane.isLt, dite_true, List.map_cons, List.foldlM_cons,
            clearLane_bitLanes]
          congr 1
          funext next
          apply induction
          intro other selected_other
          have after := lt_of_update_least least selected_other
          have := bounded lane chosen
          omega

/-- One round of the outer loop inserts the live pairs of its block in slot order. -/
theorem rehashBlock_eq (T : Traits κ υ) (insertNew : Hashmap κ υ → κ → υ → Exec (Hashmap κ υ))
    (backup s : Hashmap κ υ) (i : Nat) :
    rehashBlock T insertNew backup s i =
      headerBlock T backup i >>= fun block =>
        block.livePairs.foldlM (fun s pair => insertNew s pair.key pair.value) s := by
  have slots := finRange_split (m := 16) (n := 16) rfl Block.firstSlot_val Block.secondSlot_val
  simp only [rehashBlock, andEpi32_one]
  congr 1
  funext block
  have live : block.livePairs =
      (((List.finRange 16).filter fun lane => (block.firstHeaders lane).getLsbD 0).map
          fun lane => block.pair (Block.firstSlot lane)) ++
        (((List.finRange 16).filter fun lane => (block.secondHeaders lane).getLsbD 0).map
          fun lane => block.pair (Block.secondSlot lane)) := by
    rw [Block.livePairs, Block.pairsWhere, slots, List.filter_append, List.map_append,
      List.filter_map, List.filter_map, List.map_map, List.map_map]
    rfl
  rw [live, List.foldlM_append, rehashLoop_bitLanes _ _ _ 16 _ (by omega)]
  congr 1
  funext next
  rw [rehashLoop_bitLanes _ _ _ 16 _ (by omega)]

end RobinHoodHashmap
