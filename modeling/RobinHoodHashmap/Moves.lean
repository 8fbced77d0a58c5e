import RobinHoodHashmap.Assignment
import RobinHoodHashmap.Refinement

/-!
# Moved-from maps

A move sets `_memory` of its source to null and leaves the other members as they are.  No member
function tests `_memory`, so a moved-from map is good for its destructor only.
-/

namespace RobinHoodHashmap

open CHeap Execution Hashmap

variable {κ υ ν : Type}

/-! ## Accesses through null -/

namespace Machine

section Null

variable {C : Codec κ υ} {m : Machine} (null : m.this.memory = none)

include null

theorem searchBlock_of_null [BEq κ] (nth : Nat) (key : κ) (homeIndex hash : BitVec 64) :
    searchBlock C m nth key homeIndex hash = Execution.fault .nullDereference := by
  rw [searchBlock, null]
  rfl

/-- Every member function but `size` and the copy constructor begins with an access. -/
theorem step_of_null [BEq κ] (calloc : Heap → Nat → Heap × Pointer) {op : Op κ υ}
    (not_size : op ≠ .size) (not_copy : op ≠ .copy) :
    step C calloc m op = Execution.fault .nullDereference := by
  have find_stops : ∀ key, find C m key = Execution.fault .nullDereference :=
    fun key => searchBlock_of_null null _ key _ _
  cases op with
  | insert key value =>
      rw [step, insert, callDepth, insertWithin, searchBlock_of_null null, fault_bind, fault_bind]
  | find key => rw [step, find_stops, fault_bind]
  | erase key =>
      rw [step, erase]
      dsimp only
      rw [searchBlock_of_null null, fault_bind, fault_bind]
  | read key => rw [step, index, find_stops, fault_bind, fault_bind]
  | write key value => rw [step, index, find_stops, fault_bind, fault_bind]
  | clear =>
      rw [step, clear, null]
      rfl
  | copy => exact (not_copy rfl).elim
  | size => exact (not_size rfl).elim

theorem copyConstruct_of_null {calloc : Heap → Nat → Heap × Pointer} (callocs : Callocs calloc) :
    (copyConstruct C calloc m.heap m.this).result = .error .nullDereference := by
  have stopped := (callocs m.heap (bufferSize C.toLayout m.this.capacity)).memcpy_of_null
  rw [copyConstruct, null, result_allocate_bind]
  dsimp only
  rw [stopped]
  rfl

end Null

end Machine

/-! ## Objects of a world -/

namespace World

/-- A map and the heap it lies in. -/
def machine (w : World ν) (name : ν) : Machine := ⟨w.heap, w.maps name⟩

/-- A sequence of calls on an object. -/
def calls [BEq κ] (C : Codec κ υ) (calloc : Heap → Nat → Heap × Pointer) (w : World ν) (name : ν)
    (ops : List (Op κ υ)) : ByteExec (List (Answer υ)) := do
  let (answers, _) ← Machine.run C calloc (w.machine name) ops
  pure answers

/-- `robin_hood_hashmap(robin_hood_hashmap&&)`. -/
def moveConstruct [DecidableEq ν] (w : World ν) (this other : ν) : World ν :=
  { w with
    maps := Function.update (Function.update w.maps this (w.maps other)) other
      { w.maps other with memory := none } }

variable {C : Codec κ υ} {w : World ν} {name : ν} {address : Nat} {s : Hashmap κ υ}

theorem Stores.embeds (stores : w.Stores C.toLayout name address s) (addressable : Addressable s) :
    Embeds C (w.heap.erase address) s (w.machine name) := by
  obtain ⟨bytes, live, fits, rfl⟩ := stores.block
  refine ⟨addressable, rfl, rfl, rfl, rfl, address,
    bytes.take (bufferSize C.toLayout (w.maps name).capacity),
    bytes.drop (bufferSize C.toLayout (w.maps name).capacity), Finmap.notMem_erase_self,
    stores.memory_eq, ?_, List.length_take_of_le fits, (blocksOf_take C.toLayout _ bytes).symm⟩
  rw [List.take_append_drop, insert_erase live]
  rfl

theorem stores_of_embeds {frame : Heap} (embeds : Embeds C frame s (w.machine name)) :
    ∃ address, w.Stores C.toLayout name address s := by
  obtain ⟨address, bytes, rest, -, memory_eq, heap_eq, encodes⟩ := embeds.buffer
  have capacity_eq : (w.maps name).capacity = s.capacity := embeds.capacity_eq
  have live : w.heap.lookup address = some (bytes ++ rest) := by
    change (w.machine name).heap.lookup address = _
    rw [heap_eq, Finmap.lookup_insert]
  refine ⟨address, memory_eq, bytes ++ rest, live, ?_, ?_⟩
  · rw [capacity_eq, bufferSize, ← encodes.length_eq, List.length_append]
    exact Nat.le_add_right _ _
  · refine Hashmap.ext embeds.count_eq embeds.capacity_eq embeds.maxOffset_eq embeds.bitMask_eq' ?_
    change blocksOf C.toLayout (w.maps name).capacity (bytes ++ rest) = s.memory
    rw [capacity_eq, ← blocksOf_take, ← encodes.length_eq, List.take_left]
    exact encodes.memory_eq.symm

end World

/-! ## Moves -/

/-- What is left of a map after a move: an object that can be destroyed, whose other uses access a
missing buffer. -/
structure Detached [BEq κ] [DecidableEq ν] (C : Codec κ υ) (w : World ν) (name : ν) : Prop where
  /-- `_memory` is null. -/
  memory_eq : (w.maps name).memory = none
  /-- The destructor changes nothing. -/
  destroyed : (w.machine name).destroy = pure w.heap
  /-- `insert`, `find`, `erase`, `operator[]` and `clear` dereference null at once. -/
  calls_stop : ∀ calloc (op : Op κ υ) (ops : List (Op κ υ)), op ≠ .size → op ≠ .copy →
    w.calls C calloc name (op :: ops) = Execution.fault .nullDereference
  /-- So does a copy construction from the object, whatever `calloc` finds. -/
  copy_stops : ∀ calloc, Callocs calloc →
    (Machine.copyConstruct C calloc w.heap (w.maps name)).result = .error .nullDereference
  /-- So does an assignment from the object, whatever buffer `realloc` leaves the target. -/
  assignments_stop : ∀ (realloc : Heap → Pointer → Nat → Heap × Pointer) (this : ν) block, this ≠ name →
    access (realloc w.heap (w.maps this).memory (bufferSize C.toLayout (w.maps name).capacity)).1
      (w.maps this).memory (bufferSize C.toLayout (w.maps name).capacity) = .ok block →
    (copyAssign realloc C.toLayout w this name).result = .error .nullDereference ∧
      (moveAssign realloc C.toLayout w this name).result = .error .nullDereference

section Proofs

variable [BEq κ] [DecidableEq ν] {C : Codec κ υ} {w : World ν}

theorem detached_of_null {name : ν} (null : (w.maps name).memory = none) : Detached C w name where
  memory_eq := null
  destroyed := by
    rw [Machine.destroy, World.machine, null]
    rfl
  calls_stop calloc op ops not_size not_copy := by
    have null' : (w.machine name).this.memory = none := null
    rw [World.calls, Machine.run, Machine.step_of_null null' calloc not_size not_copy, fault_bind,
      fault_bind]
  copy_stops calloc callocs := by
    have null' : (w.machine name).this.memory = none := null
    exact Machine.copyConstruct_of_null null' callocs
  assignments_stop realloc this block distinct target := by
    have stopped : (overwriteBuffer realloc C.toLayout w this name).result =
        .error .nullDereference := by
      rw [overwriteBuffer_result rfl, null, memcpy_of_null target]
      rfl
    constructor
    · rw [copyAssign, if_pos distinct, stopped]
    · rw [moveAssign, if_pos distinct, result_bind_of_error stopped]

variable {this other : ν} {s : Hashmap κ υ} {address : Nat}

omit [BEq κ] in
theorem stores_moveConstruct (source : w.Stores C.toLayout other address s) (distinct : this ≠ other) :
    (w.moveConstruct this other).Stores C.toLayout this address s := by
  have members : (w.moveConstruct this other).maps this = w.maps other := by
    simp only [World.moveConstruct, Function.update_of_ne distinct, Function.update_self]
  refine ⟨members ▸ source.memory_eq, ?_⟩
  rw [members]
  exact source.block

omit [BEq κ] in
theorem moveAssign_completes {realloc : Heap → Pointer → Nat → Heap × Pointer} {w' : World ν}
    (distinct : this ≠ other) (source : w.Stores C.toLayout other address s)
    (apart : (w.maps this).memory ≠ some address)
    (allowed : Realloc w.heap (w.maps this).memory
      (bufferSize C.toLayout (w.maps other).capacity)
      (realloc w.heap (w.maps this).memory (bufferSize C.toLayout (w.maps other).capacity)).1
      (realloc w.heap (w.maps this).memory (bufferSize C.toLayout (w.maps other).capacity)).2)
    (completes : (moveAssign realloc C.toLayout w this other).result = .ok w') :
    ∃ thisAddress, w'.Stores C.toLayout this thisAddress s ∧ (w'.maps other).memory = none := by
  cases live : access
      (realloc w.heap (w.maps this).memory (bufferSize C.toLayout (w.maps other).capacity)).1
      (w.maps this).memory (bufferSize C.toLayout (w.maps other).capacity) with
  | error misuse =>
      rw [moveAssign, if_pos distinct,
        result_bind_of_error (overwriteBuffer_of_lost rfl live)] at completes
      cases completes
  | ok block =>
      cases memory_eq : (w.maps this).memory with
      | none =>
          rw [memory_eq] at live
          cases live
      | some thisAddress =>
          obtain ⟨w'', moved, -, stores, -, null⟩ := moveAssign_of_live distinct memory_eq source
            (fun same => apart (memory_eq.trans (congrArg some same))) Prod.mk.eta.symm allowed live
          obtain rfl := Except.ok.inj (moved.symm.trans completes)
          exact ⟨thisAddress, stores, null⟩

omit [DecidableEq ν] [BEq κ] in
theorem answers_of_follows {frame : Heap} {left : Exec (List (Answer υ) × Hashmap κ υ)}
    {right : ByteExec (List (Answer υ) × Machine)}
    (follows : Follows observation.visible (Answers C frame) left right) :
    (right >>= fun outcome => pure outcome.1).result = left.result.map Prod.fst := by
  obtain ⟨-, results⟩ := follows
  cases left_result : left.result with
  | error reason =>
      cases right_result : right.result with
      | ok outcome => simp [left_result, right_result] at results
      | error reason' =>
          rw [left_result, right_result] at results
          rw [result_bind_of_error right_result, Except.map, ← results]
  | ok outcome =>
      cases right_result : right.result with
      | error reason => simp [left_result, right_result] at results
      | ok outcome' =>
          rw [left_result, right_result] at results
          rw [result_bind_of_ok right_result, result_pure, Except.map, ← results.1]

omit [DecidableEq ν] in
/-- Two objects that store one table answer alike where nothing fails. -/
theorem calls_eq_of_stores {w' : World ν} {address' : Nat} (addressable : Addressable s)
    (stores : w.Stores C.toLayout other address s) (stores' : w'.Stores C.toLayout this address' s)
    {calloc : Heap → Nat → Heap × Pointer} (callocs : Callocs calloc) (ops : List (Op κ υ))
    (unfailing : Unfailing (w.calls C calloc other ops))
    (unfailing' : Unfailing (w'.calls C calloc this ops)) :
    (w'.calls C calloc this ops).result = (w.calls C calloc other ops).result := by
  have follows := (run_embeds callocs (stores.embeds addressable) ops).follows unfailing.first
  have follows' := (run_embeds callocs (stores'.embeds addressable) ops).follows unfailing'.first
  exact (answers_of_follows follows'.1).trans (answers_of_follows follows.1).symm

/-- A move leaves its source without a buffer and good for its destructor only; the new object, or
the target of an assignment that completes, is the map the source was. -/
theorem moved_from_detached (source : w.Stores C.toLayout other address s) :
    (∀ this, this ≠ other →
      (w.moveConstruct this other).Stores C.toLayout this address s ∧
        (∀ calloc ops, (w.moveConstruct this other).calls C calloc this ops =
          w.calls C calloc other ops) ∧
        Detached C (w.moveConstruct this other) other) ∧
      ∀ this realloc, this ≠ other → (w.maps this).memory ≠ some address →
        Realloc w.heap (w.maps this).memory (bufferSize C.toLayout (w.maps other).capacity)
          (realloc w.heap (w.maps this).memory (bufferSize C.toLayout (w.maps other).capacity)).1
          (realloc w.heap (w.maps this).memory (bufferSize C.toLayout (w.maps other).capacity)).2 →
        ∀ w', (moveAssign realloc C.toLayout w this other).result = .ok w' →
          (∃ thisAddress, w'.Stores C.toLayout this thisAddress s) ∧
          (Addressable s → ∀ calloc, Callocs calloc → ∀ ops,
            Unfailing (w.calls C calloc other ops) → Unfailing (w'.calls C calloc this ops) →
            (w'.calls C calloc this ops).result = (w.calls C calloc other ops).result) ∧
          Detached C w' other := by
  constructor
  · intro this distinct
    refine ⟨stores_moveConstruct source distinct, fun calloc ops => ?_, detached_of_null ?_⟩
    · have same : (w.moveConstruct this other).machine this = w.machine other := by
        simp only [World.machine, World.moveConstruct, Function.update_of_ne distinct,
          Function.update_self]
      rw [World.calls, World.calls, same]
    · simp only [World.moveConstruct, Function.update_self]
  · intro this realloc distinct apart allowed w' completes
    obtain ⟨thisAddress, stores, null⟩ := moveAssign_completes distinct source apart allowed completes
    refine ⟨⟨thisAddress, stores⟩, fun addressable calloc callocs ops => ?_, detached_of_null null⟩
    exact calls_eq_of_stores addressable source stores callocs ops

end Proofs

/-! ## Two maps and room for a third -/

/-- The two maps, and an object that is not constructed yet. -/
def threeObjects : World (Option Bool) where
  heap := twoMaps.heap
  maps
    | none => ⟨0#32, 0#32, 0#32, 0#32, none⟩
    | some name => twoMaps.maps name

theorem threeObjects_stores :
    threeObjects.Stores tempLayout (some false) 1 (holding 32#32 6#64 1#64) ∧
      threeObjects.Stores tempLayout (some true) 2 (holding 64#32 5#64 7#64) :=
  ⟨⟨twoMaps_stores.1.memory_eq, twoMaps_stores.1.block⟩,
    ⟨twoMaps_stores.2.memory_eq, twoMaps_stores.2.block⟩⟩

theorem moved_from_detached_spare :
    ((threeObjects.moveConstruct none (some true)).calls tempCodec callocAfter none
        [.find 5#64]).result = .ok [.pointer (some 7#64)] ∧
      Detached tempCodec (threeObjects.moveConstruct none (some true)) (some true) ∧
      ∃ w', (moveAssign reallocInPlace tempLayout threeObjects (some false) (some true)).result =
          .ok w' ∧
        (w'.calls tempCodec callocAfter (some false) [.find 5#64]).result =
          .ok [.pointer (some 7#64)] ∧
        Detached tempCodec w' (some true) := by
  obtain ⟨constructs, assigns⟩ := moved_from_detached (C := tempCodec) threeObjects_stores.2
  obtain ⟨moved, alike, detached⟩ := constructs none (by decide)
  have addressable := (twoMaps_reachable.2.invariant (by decide)).toAddressable
  have quiet : NoWrap (run tempHash (holding 64#32 5#64 7#64) [.find 5#64]) := by decide +kernel
  have answers : (threeObjects.calls tempCodec callocAfter (some true) [.find 5#64]).result =
      .ok [.pointer (some 7#64)] := by decide +kernel
  have live : threeObjects.heap.lookup 1 = some (holdingBytes 32#32 6#64 1#64) := Finmap.lookup_insert _
  have resized := reallocInPlace_of_live (bufferSize tempLayout 64#32) live
  have allowed : Realloc threeObjects.heap (some 1) (bufferSize tempLayout 64#32)
      (reallocInPlace threeObjects.heap (some 1) (bufferSize tempLayout 64#32)).1
      (reallocInPlace threeObjects.heap (some 1) (bufferSize tempLayout 64#32)).2 := by
    rw [resized]
    exact .inPlace live (length_resized _ _) (take_resized _ _)
  have unfailing : ∀ {w : World (Option Bool)} {name address},
      w.Stores tempLayout name address (holding 64#32 5#64 7#64) →
        Unfailing (w.calls tempCodec callocAfter name [.find 5#64]) := by
    intro w name address stores
    have ran := run_embeds (C := tempCodec) callocs_callocAfter (stores.embeds addressable) [.find 5#64]
    exact (ran.reaches neverFails_callocAfter quiet).bind fun _ _ => Execution.always_pure _ _
  obtain ⟨w', completes, -⟩ := moveAssign_of_live (by decide) threeObjects_stores.1.memory_eq
    threeObjects_stores.2 (by decide) resized
    (.inPlace live (length_resized _ _) (take_resized _ _))
    (access_of_live (Finmap.lookup_insert _) (length_resized _ _).ge)
  obtain ⟨⟨thisAddress, stores⟩, alike', detached'⟩ :=
    assigns (some false) reallocInPlace (by decide) (by decide) allowed w' completes
  have same := alike' addressable callocAfter callocs_callocAfter [.find 5#64]
    (unfailing threeObjects_stores.2) (unfailing stores)
  exact ⟨(congrArg Execution.result (alike callocAfter _)).trans answers, detached, w', completes,
    same.trans answers, detached'⟩

/-- A map that has been moved from answers no lookup, whatever finite map it might be. -/
theorem not_map_after_move :
    Reachable tempHash 64#32 (holding 64#32 5#64 7#64) ∧
      threeObjects.Stores tempLayout (some true) 2 (holding 64#32 5#64 7#64) ∧
      (threeObjects.moveConstruct none (some true)).calls tempCodec callocAfter (some true)
        [.find 5#64] = Execution.fault .nullDereference ∧
      (∀ map, ((threeObjects.moveConstruct none (some true)).calls tempCodec callocAfter (some true)
        [.find 5#64]).result ≠ .ok (referenceRun tempHash map [.find 5#64]).1) ∧
      ∀ address s, ¬(threeObjects.moveConstruct none (some true)).Stores tempLayout (some true)
        address s := by
  have null : ((threeObjects.moveConstruct none (some true)).maps (some true)).memory = none := by
    simp only [World.moveConstruct, Function.update_self]
  have stops : (threeObjects.moveConstruct none (some true)).calls tempCodec callocAfter (some true)
      [.find 5#64] = Execution.fault .nullDereference :=
    (detached_of_null null).calls_stop callocAfter _ _ nofun nofun
  refine ⟨twoMaps_reachable.2, threeObjects_stores.2, stops, fun map => ?_, fun address s stores => ?_⟩
  · rw [stops]
    exact nofun
  · rw [stores.memory_eq] at null
    cases null

end RobinHoodHashmap
