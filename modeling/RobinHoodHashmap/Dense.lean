import RobinHoodHashmap.HighWater

/-!
# Dense keys

Keys whose hashes are consecutive from zero share the blocks of a table evenly: a run that at some
point holds all of them ends at the least level whose power of two is enough for them, and with up to
`2^31` of them it overflows no doubling.
-/

namespace RobinHoodHashmap

open Hashmap

variable {κ υ : Type} {T : Traits κ υ} {keys : Finset κ} {n : Nat}

/-- The hashes of the keys are the numbers below `n`, each once. -/
def Dense (T : Traits κ υ) (keys : Finset κ) (n : Nat) : Prop :=
  Set.BijOn (fun key => (T.hasher key).toNat) keys {h | h < n}

/-- Hashes below `n` that share a block of a table of `2 ^ exponent` slots. -/
def sharing (exponent n p : Nat) : Finset Nat := (Finset.range n).filter fun h => h % 2 ^ exponent / 32 = p

theorem card_sharing_le {exponent n : Nat} (within : n ≤ 2 ^ exponent) (p : Nat) :
    (sharing exponent n p).card ≤ 32 := by
  have subset : sharing exponent n p ⊆ Finset.Ico (32 * p) (32 * p + 32) := by
    intro h member
    obtain ⟨below, shared⟩ := Finset.mem_filter.mp member
    rw [Nat.mod_eq_of_lt ((Finset.mem_range.mp below).trans_le within)] at shared
    rw [Finset.mem_Ico]
    omega
  calc
    _ ≤ (Finset.Ico (32 * p) (32 * p + 32)).card := Finset.card_le_card subset
    _ = 32 := by rw [Nat.card_Ico, Nat.add_sub_cancel_left]

/-- One hash too many meets the first thirty-two in their block. -/
theorem lt_card_sharing {exponent n : Nat} (wide : 5 ≤ exponent) (beyond : 2 ^ exponent < n) :
    32 < (sharing exponent n 0).card := by
  have slots : 2 ^ 5 ≤ 2 ^ exponent := Nat.pow_le_pow_right (by decide) wide
  have fresh : 2 ^ exponent ∉ Finset.range 32 := by
    rw [Finset.mem_range]
    omega
  have subset : Finset.cons (2 ^ exponent) (Finset.range 32) fresh ⊆ sharing exponent n 0 := by
    intro h member
    rw [sharing, Finset.mem_filter, Finset.mem_range]
    rcases Finset.mem_cons.mp member with rfl | low
    · exact ⟨beyond, by rw [Nat.mod_self]⟩
    · have small := Finset.mem_range.mp low
      exact ⟨by omega, by rw [Nat.mod_eq_of_lt (by omega), Nat.div_eq_of_lt small]⟩
  calc
    32 < (Finset.cons (2 ^ exponent) (Finset.range 32) fresh).card := by
      rw [Finset.card_cons, Finset.card_range]
      decide
    _ ≤ _ := Finset.card_le_card subset

/-- Dense keys fit exactly where there are as many slots as keys. -/
theorem Dense.fitsAfter_iff (dense : Dense T keys n) {capacity : BitVec 32}
    (capacity_ge : 32 ≤ capacity.toNat) (level : Nat) :
    FitsAfter T capacity keys level ↔ n ≤ 2 ^ (Nat.log 2 capacity.toNat + level) := by
  have wide : 5 ≤ Nat.log 2 capacity.toNat + level :=
    Nat.le_add_right_of_le (Nat.le_log_of_pow_le (by decide) capacity_ge)
  have card_eq : ∀ p, (keys.filter fun other => levelBlock T capacity level other = p).card =
      (sharing (Nat.log 2 capacity.toNat + level) n p).card := by
    intro p
    refine Finset.card_bij (fun key _ => (T.hasher key).toNat) (fun key member => ?_)
      (fun key member other member' same => ?_) fun h member => ?_
    · obtain ⟨inside, block_eq⟩ := Finset.mem_filter.mp member
      rw [levelBlock, blockUnder_eq] at block_eq
      exact Finset.mem_filter.mpr ⟨Finset.mem_range.mpr (dense.mapsTo inside), block_eq⟩
    · exact dense.injOn (Finset.mem_filter.mp member).1 (Finset.mem_filter.mp member').1 same
    · obtain ⟨below, shared⟩ := Finset.mem_filter.mp member
      obtain ⟨key, inside, rfl⟩ := dense.surjOn (Finset.mem_range.mp below)
      refine ⟨key, Finset.mem_filter.mpr ⟨inside, ?_⟩, rfl⟩
      rw [levelBlock, blockUnder_eq]
      exact shared
  constructor
  · intro fits
    by_contra beyond
    have crowded := lt_card_sharing wide (not_le.mp beyond)
    rw [← card_eq] at crowded
    exact (not_le.mpr crowded) (fits 0)
  · intro within p
    rw [card_eq]
    exact card_sharing_le within p

/-- A session over dense keys that at some point holds all of them, at most `2^31`, overflows no doubling
and grows to the least number of slots that is enough for them. -/
theorem dense_session [DecidableEq κ] [BEq κ] [LawfulBEq κ] {capacity : BitVec 32}
    (capacity_ge : 32 ≤ capacity.toNat) (dense : Dense T keys n) (bounded : n ≤ 2 ^ 31)
    (ops : List (Op κ υ)) (inserted : insertedKeys ops ⊆ keys)
    (full : ∃ m ∈ visited T ∅ ops, keys ⊆ m.keys) :
    ∃ s level, session T capacity ops =
        ⟨doublings capacity level, .ok ((referenceRun T ∅ ops).1, s)⟩ ∧
      s.capacity.toNat = capacity.toNat * 2 ^ level ∧
      IsLeast {level | n ≤ 2 ^ (Nat.log 2 capacity.toNat + level)} level ∧
      Represents s (referenceRun T ∅ ops).2 := by
  have within : ∀ m ∈ visited T ∅ ops, m.keys ⊆ keys := by
    refine keys_visited_subset (fun op member key inserts => inserted ?_) (by simp)
    exact List.mem_toFinset.mpr (List.mem_filterMap.mpr ⟨op, member, inserts⟩)
  have fit_iff : ∀ level, AllFitAfter T capacity (visited T ∅ ops) level ↔
      n ≤ 2 ^ (Nat.log 2 capacity.toNat + level) := by
    intro level
    rw [← dense.fitsAfter_iff capacity_ge]
    constructor
    · intro all
      obtain ⟨m, member, holds⟩ := full
      exact (all m member).subset holds
    · exact fun fits m member => fits.subset (within m member)
  have no_wrap : NoWrap (run T (freshTable T capacity) ops) := by
    have log_lt : Nat.log 2 capacity.toNat < 32 := Nat.log_lt_of_lt_pow (by omega) capacity.isLt
    refine (noWrap_run_iff T capacity_ge ops).mpr ⟨31 - Nat.log 2 capacity.toNat, ?_, ?_⟩
    · calc
        _ < 2 ^ (Nat.log 2 capacity.toNat + 1) * 2 ^ (31 - Nat.log 2 capacity.toNat) :=
          Nat.mul_lt_mul_of_pos_right (Nat.lt_pow_succ_log_self (by decide) _) (Nat.two_pow_pos _)
        _ = 2 ^ 32 := by
          rw [← Nat.pow_add]
          congr 1
          omega
    · rw [fit_iff, Nat.add_sub_cancel' (Nat.le_of_lt_succ log_lt)]
      exact bounded
  obtain ⟨s, level, run_eq, capacity_eq, least, represents⟩ := run_high_water T capacity_ge ops no_wrap
  simp only [fit_iff] at least
  rw [session_eq T (ne_zero_of_block capacity_ge)]
  exact ⟨s, level, run_eq, capacity_eq, least, represents⟩

/-! ## Words under `temp_hash` -/

/-- The words below `n`. -/
def wordsBelow (n : Nat) : Finset (BitVec 64) := (Finset.range n).image (BitVec.ofNat 64)

theorem dense_wordsBelow {n : Nat} (le : n ≤ 2 ^ 64) : Dense tempHash (wordsBelow n) n := by
  have spelt : ∀ h < n, (BitVec.ofNat 64 h).toNat = h := by
    intro h below
    rw [BitVec.toNat_ofNat, Nat.mod_eq_of_lt (below.trans_le le)]
  refine ⟨fun key member => ?_, fun key _ other _ same => BitVec.eq_of_toNat_eq same, fun h below => ?_⟩
  · obtain ⟨h, inside, rfl⟩ := Finset.mem_image.mp member
    change (BitVec.ofNat 64 h).toNat < n
    rw [spelt h (Finset.mem_range.mp inside)]
    exact Finset.mem_range.mp inside
  · exact ⟨_, Finset.mem_image.mpr ⟨h, Finset.mem_range.mpr below, rfl⟩, spelt h below⟩

/-- Insert the words below `n`, each as its own value. -/
def countTo (n : Nat) : List (Op (BitVec 64) (BitVec 64)) :=
  (List.range n).map fun h => .insert (BitVec.ofNat 64 h) (BitVec.ofNat 64 h)

theorem dense_session_countTo : ∃ s, (session tempHash 32#32 (countTo 33)).log = [32#32] ∧
    (session tempHash 32#32 (countTo 33)).result = .ok (List.replicate 33 .done, s) ∧
    s.capacity.toNat = 64 := by
  obtain ⟨s, level, session_eq, capacity_eq, least, -⟩ := dense_session
    (show 32 ≤ (32#32).toNat by decide) (dense_wordsBelow (show 33 ≤ 2 ^ 64 by decide)) (by decide)
    (countTo 33) (by decide +kernel) (by decide +kernel)
  have log_eq : Nat.log 2 (32#32).toNat = 5 := Nat.log_pow (b := 2) (x := 5) (by decide)
  rw [log_eq] at least
  obtain rfl : level = 1 := by
    refine le_antisymm (least.2 (by decide)) (Nat.pos_of_ne_zero ?_)
    rintro rfl
    exact absurd least.1 (by decide)
  have answers : (referenceRun tempHash ∅ (countTo 33)).1 = List.replicate 33 .done := by
    decide +kernel
  rw [answers] at session_eq
  exact ⟨s, congrArg Execution.log session_eq, congrArg Execution.result session_eq, capacity_eq⟩

end RobinHoodHashmap
