import RobinHoodHashmap.Bytes
import RobinHoodHashmap.CHeap

/-!
# Access to live blocks

Loads and stores at an offset from a pointer, and functions that do what `calloc` and `realloc` may do.
A heap is seen as one block over a frame of other blocks: accesses through the pointer of the block
answer from its bytes and leave the frame as it is.
-/

namespace CHeap

open Bytes

/-- Read `size` bytes at an offset from a pointer. -/
def load (heap : Heap) (pointer : Pointer) (offset size : Nat) :
    Except Misuse (List (BitVec 8)) := do
  let (_, bytes) ← access heap pointer (offset + size)
  pure ((bytes.drop offset).take size)

/-- Overwrite bytes at an offset from a pointer. -/
def store (heap : Heap) (pointer : Pointer) (offset : Nat) (new : List (BitVec 8)) :
    Except Misuse Heap := do
  let (address, bytes) ← access heap pointer (offset + new.length)
  pure (heap.insert address (writeAt bytes offset new))

/-! ## Allocators -/

/-- A function that does what `calloc` may do. -/
def Callocs (calloc : Heap → Nat → Heap × Pointer) : Prop :=
  ∀ heap size, Calloc heap size (calloc heap size).1 (calloc heap size).2

/-- A function that does what `realloc` may do with a live block or null. -/
def Reallocs (realloc : Heap → Pointer → Nat → Heap × Pointer) : Prop :=
  ∀ heap pointer size, (∀ address, pointer = some address → address ∈ heap) →
    Realloc heap pointer size (realloc heap pointer size).1 (realloc heap pointer size).2

/-- An allocator with a block for every request. -/
def NeverFails (calloc : Heap → Nat → Heap × Pointer) : Prop := ∀ heap size, (calloc heap size).2 ≠ none

/-- A request that does not fail gets a new block. -/
theorem Callocs.allocated {calloc : Heap → Nat → Heap × Pointer} (callocs : Callocs calloc)
    {heap : Heap} {size : Nat} (found : (calloc heap size).2 ≠ none) :
    ∃ address, address ∉ heap ∧
      calloc heap size = (heap.insert address (List.replicate size 0#8), some address) := by
  have outcome := callocs heap size
  generalize calloc heap size = allocated at found outcome
  obtain ⟨heap', pointer⟩ := allocated
  cases outcome with
  | allocated fresh => exact ⟨_, fresh, rfl⟩
  | failed => exact (found rfl).elim

/-- An address after the last live one. -/
def nextAddress (heap : Heap) : Nat := heap.keys.sup id + 1

theorem nextAddress_notMem (heap : Heap) : nextAddress heap ∉ heap := by
  intro live
  have bounded : nextAddress heap ≤ heap.keys.sup id :=
    Finset.le_sup (f := id) (Finmap.mem_keys.mpr live)
  exact Nat.not_succ_le_self _ bounded

/-- A `calloc` that allocates after the last live address. -/
def callocAfter (heap : Heap) (size : Nat) : Heap × Pointer :=
  (heap.insert (nextAddress heap) (List.replicate size 0#8), some (nextAddress heap))

theorem callocs_callocAfter : Callocs callocAfter := fun heap _ => .allocated (nextAddress_notMem heap)

theorem neverFails_callocAfter : NeverFails callocAfter := by
  intro heap size
  exact Option.some_ne_none (nextAddress heap)

/-- The bytes of a resized block, padded with zeroes. -/
def resized (old : List (BitVec 8)) (size : Nat) : List (BitVec 8) :=
  old.take size ++ List.replicate (size - old.length) 0#8

theorem length_resized (old : List (BitVec 8)) (size : Nat) : (resized old size).length = size := by
  simp only [resized, List.length_append, List.length_take, List.length_replicate]
  omega

theorem take_resized (old : List (BitVec 8)) (size : Nat) :
    (resized old size).take old.length = old.take size := by
  rw [resized]
  rcases Nat.le_total size old.length with shorter | longer
  · rw [Nat.sub_eq_zero_of_le shorter, List.replicate_zero, List.append_nil, List.take_take,
      Nat.min_eq_right shorter]
  · rw [List.take_of_length_le longer, List.take_left]

/-- A `realloc` that resizes every live block where it is. -/
def reallocInPlace (heap : Heap) (pointer : Pointer) (size : Nat) : Heap × Pointer :=
  match pointer with
  | none => callocAfter heap size
  | some address =>
      match heap.lookup address with
      | none => (heap, none)
      | some old => (heap.insert address (resized old size), some address)

theorem reallocInPlace_of_live {heap : Heap} {address : Nat} {old : List (BitVec 8)} (size : Nat)
    (live : heap.lookup address = some old) :
    reallocInPlace heap (some address) size =
      (heap.insert address (resized old size), some address) := by
  simp only [reallocInPlace, live]

theorem reallocs_reallocInPlace : Reallocs reallocInPlace := by
  intro heap pointer size live
  cases pointer with
  | none => exact .allocated (nextAddress_notMem heap) List.length_replicate
  | some address =>
      obtain ⟨old, old_live⟩ := Finmap.mem_iff.mp (live address rfl)
      rw [reallocInPlace_of_live size old_live]
      exact .inPlace old_live (length_resized old size) (take_resized old size)

/-- A `realloc` that moves every live block after the last live address. -/
def reallocMoving (heap : Heap) (pointer : Pointer) (size : Nat) : Heap × Pointer :=
  match pointer with
  | none => callocAfter heap size
  | some address =>
      match heap.lookup address with
      | none => (heap, none)
      | some old =>
          ((heap.erase address).insert (nextAddress heap) (resized old size), some (nextAddress heap))

theorem reallocMoving_of_live {heap : Heap} {address : Nat} {old : List (BitVec 8)} (size : Nat)
    (live : heap.lookup address = some old) :
    reallocMoving heap (some address) size =
      ((heap.erase address).insert (nextAddress heap) (resized old size), some (nextAddress heap)) := by
  simp only [reallocMoving, live]

theorem lookup_reallocMoving {heap : Heap} {address : Nat} {old : List (BitVec 8)}
    (live : heap.lookup address = some old) (new : List (BitVec 8)) :
    ((heap.erase address).insert (nextAddress heap) new).lookup address = none := by
  have distinct : address ≠ nextAddress heap := by
    intro same
    exact nextAddress_notMem heap (same ▸ Finmap.mem_of_lookup_eq_some live)
  rw [Finmap.lookup_insert_of_ne _ distinct, Finmap.lookup_erase]

theorem reallocs_reallocMoving : Reallocs reallocMoving := by
  intro heap pointer size live
  cases pointer with
  | none => exact .allocated (nextAddress_notMem heap) List.length_replicate
  | some address =>
      obtain ⟨old, old_live⟩ := Finmap.mem_iff.mp (live address rfl)
      rw [reallocMoving_of_live size old_live]
      exact .moved old_live (nextAddress_notMem heap) (length_resized old size) (take_resized old size)

/-! ## Loads, stores and releases -/

variable {heap frame : Heap} {address offset size : Nat} {bytes new : List (BitVec 8)}

theorem load_of_live (live : heap.lookup address = some bytes) (fits : offset + size ≤ bytes.length) :
    load heap (some address) offset size = .ok ((bytes.drop offset).take size) := by
  rw [load, access_of_live live fits]
  rfl

/-- A live block over the rest of the heap. -/
theorem insert_erase (live : heap.lookup address = some bytes) :
    (heap.erase address).insert address bytes = heap := by
  apply Finmap.ext_lookup
  intro other
  by_cases same : other = address
  · subst other
    rw [Finmap.lookup_insert, live]
  · rw [Finmap.lookup_insert_of_ne _ same, Finmap.lookup_erase_ne same]

theorem store_insert (fits : offset + new.length ≤ bytes.length) :
    store (frame.insert address bytes) (some address) offset new =
      .ok (frame.insert address (writeAt bytes offset new)) := by
  rw [store, access_of_live (Finmap.lookup_insert frame) fits]
  exact congrArg Except.ok (Finmap.insert_insert frame)

theorem erase_insert (fresh : address ∉ frame) :
    (frame.insert address bytes).erase address = frame := by
  apply Finmap.ext_lookup
  intro other
  by_cases same : other = address
  · subst other
    rw [Finmap.lookup_erase, Finmap.lookup_eq_none.mpr fresh]
  · rw [Finmap.lookup_erase_ne same, Finmap.lookup_insert_of_ne _ same]

theorem free_insert (fresh : address ∉ frame) :
    free (frame.insert address bytes) (some address) = .ok frame := by
  simp only [free, Finmap.lookup_insert, erase_insert fresh]

/-! ## Leaks -/

/-- One heap has the blocks of another and some more. -/
structure Leaks (before after : Heap) (blocks : Nat) : Prop where
  /-- Old blocks keep their bytes. -/
  kept : ∀ address bytes, before.lookup address = some bytes → after.lookup address = some bytes
  /-- The number of new blocks. -/
  card_eq : after.keys.card = before.keys.card + blocks

namespace Leaks

variable {before middle after : Heap} {blocks blocks' : Nat}

theorem refl (heap : Heap) : Leaks heap heap 0 := ⟨fun _ _ live => live, rfl⟩

theorem trans (first : Leaks before middle blocks) (second : Leaks middle after blocks') :
    Leaks before after (blocks + blocks') where
  kept address bytes live := second.kept address bytes (first.kept address bytes live)
  card_eq := by
    rw [second.card_eq, first.card_eq, Nat.add_assoc]

theorem insert {address : Nat} (fresh : before.lookup address = none) (bytes : List (BitVec 8)) :
    Leaks before (before.insert address bytes) 1 where
  kept address' bytes' live := by
    rw [Finmap.lookup_insert_of_ne, live]
    rintro rfl
    rw [fresh] at live
    cases live
  card_eq := by
    have keys_eq : (before.insert address bytes).keys = Insert.insert address before.keys := by
      ext other
      rw [Finmap.mem_keys, Finmap.mem_insert, Finset.mem_insert, Finmap.mem_keys]
    have absent : address ∉ before.keys := by
      rw [Finmap.mem_keys]
      exact Finmap.lookup_eq_none.mp fresh
    rw [keys_eq, Finset.card_insert_of_notMem absent]

/-- Nothing leaked. -/
theorem eq_of_zero (leaks : Leaks before after 0) : after = before := by
  have subset : before.keys ⊆ after.keys := by
    intro address member
    obtain ⟨bytes, live⟩ := Finmap.mem_iff.mp (Finmap.mem_keys.mp member)
    exact Finmap.mem_keys.mpr (Finmap.mem_of_lookup_eq_some (leaks.kept address bytes live))
  have keys_eq : before.keys = after.keys := Finset.eq_of_subset_of_card_le subset leaks.card_eq.le
  apply Finmap.ext_lookup
  intro address
  cases live : before.lookup address with
  | some bytes => exact leaks.kept address bytes live
  | none =>
      rw [Finmap.lookup_eq_none] at live ⊢
      rwa [← Finmap.mem_keys, ← keys_eq, Finmap.mem_keys]

end Leaks

end CHeap
