import RobinHoodHashmap.Addresses
import RobinHoodHashmap.Representation

/-!
# Constructor capacities

The byte size of the buffer, the range of the mask and the bound of the rehash loop agree for every
capacity of at least one block.  Below that the buffer does not hold the one block the map
addresses, and for capacity zero the constructor shifts by `log2(0)`.
-/

namespace RobinHoodHashmap

open Hashmap

variable {κ υ : Type}

/-- Every block an operation on a key touches is allocated and visited by the rehash loop, and a
growth that does not overflow keeps every entry. -/
structure Contained [BEq κ] (T : Traits κ υ) (s : Hashmap κ υ) : Prop where
  /-- The addressed block lies wholly inside the buffer. -/
  allocated : ∀ key, (s.homeBlock T key + 1) * memBlockSize T.pairSize ≤
    s.capacity.toNat * uintSize T.pairSize
  /-- The rehash loop reaches the addressed block. -/
  visited : ∀ key, s.homeBlock T key < (s.capacity >>> 5).toNat
  /-- Growth keeps the entries. -/
  kept : Doubles s.capacity → ∃ s', (resize T s).result = .ok s' ∧ s'.entries.Perm s.entries

/-- A constructor capacity under which construction and every call return, and under which every
reachable table is contained in its buffer. -/
structure SafeCapacity [BEq κ] (T : Traits κ υ) (capacity : BitVec 32) : Prop where
  /-- The constructor returns. -/
  constructs : ∃ s, (construct T capacity).result = .ok s
  /-- Calls that do not overflow return. -/
  returns : ∀ s, Reachable T capacity s → ∀ op, NoWrap (step T s op) →
    ∃ answer s', (step T s op).result = .ok (answer, s')
  /-- Tables stay inside their buffers. -/
  contained : ∀ s, Reachable T capacity s → Contained T s

/-! ## Capacities of less than one block -/

section Small

variable {T : Traits κ υ} {s : Hashmap κ υ}

theorem headerBlock_of_small (small : s.capacity.toNat < 32) (nth : Nat) :
    headerBlock T s nth = Execution.fault .outOfBounds := by
  rw [headerBlock, dif_neg]
  rw [block_fits_iff]
  omega

theorem construct_zero (T : Traits κ υ) :
    construct T 0#32 = Execution.fault .undefinedShift := by
  rw [construct, log2_zero]
  rfl

variable [BEq κ]

/-- No block of a buffer of less than one block is wholly allocated, which `headerBlock` takes for a
fault.  The calls that address no block keep the capacity. -/
theorem step_of_small (small : s.capacity.toNat < 32) (op : Op κ υ) :
    step T s op = Execution.fault .outOfBounds ∨
      ∃ answer s', step T s op = pure (answer, s') ∧ s'.capacity = s.capacity := by
  have find_fault : ∀ key, find T s key = Execution.fault .outOfBounds := fun key => by
    simp [find, headerBlock_of_small small]
  have index_fault : ∀ key, index T s key = Execution.fault .outOfBounds := fun key => by
    simp [index, find_fault]
  cases op with
  | insert key value =>
      left
      simp [step, insert, callDepth, insertWithin, headerBlock_of_small small]
  | find key =>
      left
      simp [step, find_fault]
  | erase key =>
      left
      simp [step, erase, headerBlock_of_small small]
  | read key =>
      left
      simp [step, index_fault]
  | write key value =>
      left
      simp [step, index_fault]
  | clear => exact Or.inr ⟨_, _, rfl, rfl⟩
  | copy => exact Or.inr ⟨_, _, rfl, rfl⟩
  | size => exact Or.inr ⟨_, _, rfl, rfl⟩

theorem Reachable.capacity_of_small {capacity : BitVec 32} (reachable : Reachable T capacity s)
    (small : capacity.toNat < 32) : s.capacity = capacity := by
  induction reachable with
  | @construct s constructed =>
      by_cases zero : capacity = 0#32
      · subst capacity
        simp [construct_zero] at constructed
      · obtain rfl : freshTable T capacity = s := by
          simpa [construct_eq T zero] using constructed
        rfl
  | @step s s' op answer _ _ returned induction =>
      rcases step_of_small (T := T) (by rwa [induction]) op with
        fault | ⟨answer', after, step_eq, kept⟩
      · simp [fault] at returned
      · obtain ⟨-, rfl⟩ : answer' = answer ∧ after = s' := by
          simpa [step_eq] using returned
        rw [kept, induction]

/-- A reachable map of at least one block was constructed with at least one block. -/
theorem Reachable.start_ge {capacity : BitVec 32} (reachable : Reachable T capacity s)
    (capacity_ge : 32 ≤ s.capacity.toNat) : 32 ≤ capacity.toNat := by
  by_contra small
  rw [reachable.capacity_of_small (Nat.lt_of_not_le small)] at capacity_ge
  exact small capacity_ge

theorem not_contained_of_small (small : s.capacity.toNat < 32) : ¬Contained T s := by
  intro contained
  have fits := contained.allocated T.zeroPair.key
  rw [block_fits_iff] at fits
  omega

/-- Below one block, either the constructor leaves defined behaviour or the fresh table does not
contain the block it addresses. -/
theorem not_safeCapacity_of_small {capacity : BitVec 32} (small : capacity.toNat < 32) :
    ¬SafeCapacity T capacity := by
  rintro ⟨⟨s, constructed⟩, -, contained⟩
  have reachable : Reachable T capacity s := .construct constructed
  have capacity_eq := reachable.capacity_of_small small
  exact not_contained_of_small (by rwa [capacity_eq]) (contained s reachable)

end Small

/-! ## Capacities of at least one block -/

section Large

variable [BEq κ] {T : Traits κ υ} {s : Hashmap κ υ}

theorem Invariant.contained (invariant : Invariant T s) : Contained T s where
  allocated key := by
    have inside := invariant.homeBlock_lt T key
    rw [s.allocated] at inside
    rw [block_fits_iff]
    omega
  visited key := by
    have inside := invariant.homeBlock_lt T key
    rwa [s.allocated, ← Nat.shiftRight_eq_div_pow s.capacity.toNat 5,
      ← BitVec.toNat_ushiftRight] at inside
  kept doubles :=
    ⟨rehashed T s, by rw [resize, callDepth, resizeWithin_eq invariant doubles]; rfl,
      entries_rehashed_perm invariant doubles⟩

variable [LawfulBEq κ]

theorem safeCapacity_of_large {capacity : BitVec 32} (large : 32 ≤ capacity.toNat) :
    SafeCapacity T capacity where
  constructs := ⟨_, by rw [construct_eq T (ne_zero_of_block large)]; rfl⟩
  returns := by
    intro s reachable op no_wrap
    obtain ⟨answer, s', returned, -⟩ := step_returns (reachable.invariant large) no_wrap
    exact ⟨answer, s', returned⟩
  contained _ reachable := (reachable.invariant large).contained

end Large

/-- A constructor capacity is safe exactly when it holds one block. -/
theorem safeCapacity_iff [BEq κ] [LawfulBEq κ] (T : Traits κ υ) (capacity : BitVec 32) :
    SafeCapacity T capacity ↔ 32 ≤ capacity.toNat := by
  refine ⟨fun safe => ?_, safeCapacity_of_large⟩
  by_contra small
  exact not_safeCapacity_of_small (Nat.lt_of_not_le small) safe

theorem safeCapacity_iff_forty : SafeCapacity tempHash 40#32 :=
  (safeCapacity_iff tempHash 40#32).mpr (by decide)

/-- The buffer of a map constructed with sixteen slots has half the bytes of the block it addresses, and
ends where the pair of the fifteenth slot starts. -/
theorem not_safeCapacity_sixteen :
    ¬SafeCapacity tempHash 16#32 ∧
      ∃ s, (construct tempHash 16#32).result = .ok s ∧
        (s.homeBlock tempHash 1#64 + 1) * memBlockSize tempHash.pairSize = 576 ∧
        s.capacity.toNat * uintSize tempHash.pairSize = 288 ∧ (s.capacity >>> 5).toNat = 0 ∧
        keyValueEntryPtr tempHash.pairSize (s.homeBlock tempHash 1#64) 14 = 288 := by
  refine ⟨not_safeCapacity_of_small (by decide), freshTable tempHash 16#32, ?_, ?_, ?_, ?_, ?_⟩
  · rw [construct_eq tempHash (by decide)]
    rfl
  · decide +kernel
  · decide +kernel
  · decide +kernel
  · decide +kernel

end RobinHoodHashmap
