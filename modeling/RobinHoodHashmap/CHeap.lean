import Mathlib.Data.Finmap
import Mathlib.Tactic.Common

/-!
# A heap with C allocation functions

The heap is a finite map from addresses to the bytes of live blocks.  `Calloc` and `Realloc` list what
the language standard lets the two functions do: `calloc` returns a new block of zero bytes or fails;
`realloc` resizes the block where it is, moves it and ends the life of the old block, or fails and leaves
the heap alone.
-/

namespace CHeap

/-- Live blocks by address. -/
abbrev Heap := Finmap fun _ : Nat => List (BitVec 8)

/-- A pointer; `none` is null. -/
abbrev Pointer := Option Nat

/-- Ways to misuse a pointer. -/
inductive Misuse where
  /-- The pointer is null. -/
  | nullPointer
  /-- The block is not live. -/
  | deadBlock
  /-- The block is too short. -/
  | outOfRange
  deriving DecidableEq

/-- The live block behind a pointer, which must have at least `size` bytes. -/
def access (heap : Heap) (pointer : Pointer) (size : Nat) : Except Misuse (Nat × List (BitVec 8)) :=
  match pointer with
  | none => .error .nullPointer
  | some address =>
      match heap.lookup address with
      | none => .error .deadBlock
      | some bytes => if size ≤ bytes.length then .ok (address, bytes) else .error .outOfRange

/-- `memcpy`. -/
def memcpy (heap : Heap) (target source : Pointer) (size : Nat) : Except Misuse Heap := do
  let (address, old) ← access heap target size
  let (_, bytes) ← access heap source size
  pure (heap.insert address (bytes.take size ++ old.drop size))

/-- `free`; a null pointer is ignored. -/
def free (heap : Heap) (pointer : Pointer) : Except Misuse Heap :=
  match pointer with
  | none => .ok heap
  | some address =>
      match heap.lookup address with
      | none => .error .deadBlock
      | some _ => .ok (heap.erase address)

/-- The outcomes of `calloc`: the heap afterwards and the pointer returned. -/
inductive Calloc (heap : Heap) (size : Nat) : Heap → Pointer → Prop where
  /-- A block of zero bytes at an address that was not live. -/
  | allocated {address : Nat} (fresh : address ∉ heap) :
      Calloc heap size (heap.insert address (List.replicate size 0#8)) (some address)
  /-- The request fails. -/
  | failed : Calloc heap size heap none

/-- The outcomes of `realloc`: the heap afterwards and the pointer returned. -/
inductive Realloc (heap : Heap) : Pointer → Nat → Heap → Pointer → Prop where
  /-- The block is resized where it is. -/
  | inPlace {address size : Nat} {old new : List (BitVec 8)} (live : heap.lookup address = some old)
      (length_eq : new.length = size) (kept : new.take old.length = old.take size) :
      Realloc heap (some address) size (heap.insert address new) (some address)
  /-- The block is moved; the old one is no longer live. -/
  | moved {address target size : Nat} {old new : List (BitVec 8)}
      (live : heap.lookup address = some old) (fresh : target ∉ heap) (length_eq : new.length = size)
      (kept : new.take old.length = old.take size) :
      Realloc heap (some address) size ((heap.erase address).insert target new) (some target)
  /-- A null pointer asks for a new block. -/
  | allocated {target size : Nat} {new : List (BitVec 8)} (fresh : target ∉ heap)
      (length_eq : new.length = size) :
      Realloc heap none size (heap.insert target new) (some target)
  /-- The request fails. -/
  | failed {pointer : Pointer} {size : Nat} : Realloc heap pointer size heap none

variable {heap heap' : Heap} {pointer result : Pointer} {address size : Nat}
  {bytes old : List (BitVec 8)}

theorem access_of_live (live : heap.lookup address = some bytes) (fits : size ≤ bytes.length) :
    access heap (some address) size = .ok (address, bytes) := by
  simp [access, live, fits]

theorem access_of_dead (dead : heap.lookup address = none) (size : Nat) :
    access heap (some address) size = .error .deadBlock := by
  simp [access, dead]

theorem address_of_access {block : Nat × List (BitVec 8)}
    (accessed : access heap (some address) size = .ok block) : block.1 = address := by
  simp only [access] at accessed
  split at accessed
  · cases accessed
  · split_ifs at accessed
    obtain rfl := Except.ok.inj accessed
    rfl

theorem memcpy_of_access {source : Pointer} {target block : Nat × List (BitVec 8)}
    (target_access : access heap pointer size = .ok target)
    (source_access : access heap source size = .ok block) :
    memcpy heap pointer source size =
      .ok (heap.insert target.1 (block.2.take size ++ target.2.drop size)) := by
  rw [memcpy, target_access, source_access]
  rfl

theorem memcpy_of_access_error {misuse : Misuse} (failed : access heap pointer size = .error misuse)
    (source : Pointer) : memcpy heap pointer source size = .error misuse := by
  rw [memcpy, failed]
  rfl

theorem memcpy_of_null {block : Nat × List (BitVec 8)} (target : access heap pointer size = .ok block) :
    memcpy heap pointer none size = .error .nullPointer := by
  rw [memcpy, target]
  rfl

theorem Calloc.memcpy_of_null (calloc : Calloc heap size heap' result) :
    memcpy heap' result none size = .error .nullPointer := by
  cases calloc with
  | allocated =>
      apply CHeap.memcpy_of_null
      exact access_of_live (Finmap.lookup_insert _) (List.length_replicate ..).ge
  | failed => rfl

/-- `realloc` leaves the other live blocks alone. -/
theorem Realloc.lookup_other (realloc : Realloc heap pointer size heap' result)
    (live : heap.lookup address = some bytes) (other : pointer ≠ some address) :
    heap'.lookup address = some bytes := by
  have member : address ∈ heap := Finmap.mem_of_lookup_eq_some live
  have ne_fresh : ∀ {target}, target ∉ heap → address ≠ target := by
    rintro target fresh rfl
    exact fresh member
  cases realloc with
  | inPlace =>
      rw [Finmap.lookup_insert_of_ne _ fun same => other (congrArg some same.symm)]
      exact live
  | moved _ fresh =>
      rw [Finmap.lookup_insert_of_ne _ (ne_fresh fresh),
        Finmap.lookup_erase_ne fun same => other (congrArg some same.symm)]
      exact live
  | allocated fresh =>
      rw [Finmap.lookup_insert_of_ne _ (ne_fresh fresh)]
      exact live
  | failed => exact live

/-- What becomes of the block `realloc` is asked to resize, told apart by the pointer it returns. -/
theorem Realloc.lookup_self (realloc : Realloc heap (some address) size heap' result)
    (live : heap.lookup address = some old) :
    (result = some address ∧ ∃ new, new.length = size ∧ heap'.lookup address = some new) ∨
      (result ≠ some address ∧ result ≠ none ∧ heap'.lookup address = none) ∨
      (result = none ∧ heap' = heap) := by
  cases realloc with
  | @inPlace _ _ _ new _ length_eq _ =>
      exact Or.inl ⟨rfl, new, length_eq, Finmap.lookup_insert heap⟩
  | @moved _ target _ _ _ _ fresh =>
      have distinct : address ≠ target := by
        rintro rfl
        exact fresh (Finmap.mem_of_lookup_eq_some live)
      refine Or.inr (Or.inl ⟨fun same => distinct (Option.some.inj same).symm, nofun, ?_⟩)
      rw [Finmap.lookup_insert_of_ne _ distinct, Finmap.lookup_erase]
  | failed => exact Or.inr (Or.inr ⟨rfl, rfl⟩)

/-- `realloc` that returns the pointer it was given resized the block where it is. -/
theorem Realloc.of_kept (realloc : Realloc heap (some address) size heap' (some address)) :
    ∃ new, new.length = size ∧ heap' = heap.insert address new := by
  cases realloc with
  | @inPlace _ _ _ new _ length_eq _ => exact ⟨new, length_eq, rfl⟩
  | moved live fresh => exact (fresh (Finmap.mem_of_lookup_eq_some live)).elim

end CHeap
