import RobinHoodHashmap.Moves
import RobinHoodHashmap.Refinement

/-!
# Who owns which block

Maps by name on one heap.  A ledger says that every live map owns a block of its own, that a
moved-from map owns none, and that every other live block is unowned.  Constructors, destructors,
moves and calls are a few elementary edits of the heap and of the ledger.
-/

namespace RobinHoodHashmap

open CHeap

variable {κ υ ν : Type}

/-- What a name stands for. -/
inductive Status (κ υ : Type) where
  /-- Not constructed, or destroyed. -/
  | absent
  /-- Moved from. -/
  | detached
  /-- A map. -/
  | holds (map : Finmap fun _ : κ => υ)

/-- The name stands for a map. -/
def Status.Live : Status κ υ → Prop
  | .holds _ => True
  | _ => False

theorem Status.Live.exists_holds {value : Status κ υ} (live : value.Live) :
    ∃ map, value = .holds map := by
  cases value with
  | absent | detached => exact live.elim
  | holds map => exact ⟨map, rfl⟩

theorem Status.live_update [DecidableEq ν] {status : ν → Status κ υ} {this name : ν}
    {value : Status κ υ} (not_live : ¬value.Live) (live : (Function.update status this value name).Live) :
    name ≠ this ∧ (status name).Live := by
  by_cases same : name = this
  · subst name
    rw [Function.update_self] at live
    exact (not_live live).elim
  · rw [Function.update_of_ne same] at live
    exact ⟨same, live⟩

namespace World

/-- The world after a member function of one map. -/
def withMachine [DecidableEq ν] (w : World ν) (name : ν) (m : Machine) : World ν :=
  ⟨m.heap, Function.update w.maps name m.this⟩

@[simp] theorem maps_withMachine_self [DecidableEq ν] (w : World ν) (name : ν) (m : Machine) :
    (w.withMachine name m).maps name = m.this :=
  Function.update_self ..

theorem maps_withMachine_of_ne [DecidableEq ν] (w : World ν) {name other : ν} (m : Machine)
    (distinct : other ≠ name) : (w.withMachine name m).maps other = w.maps other :=
  Function.update_of_ne distinct ..

end World

/-! ## Blocks over frames -/

section Blocks

variable {C : Codec κ υ} {frame : Heap} {s : Hashmap κ υ} {m : Machine}

theorem Embeds.lookup_frame (embeds : Embeds C frame s m) {address : Nat}
    (other : m.this.memory ≠ some address) : frame.lookup address = m.heap.lookup address := by
  obtain ⟨own, bytes, rest, -, memory_eq, heap_eq, -⟩ := embeds.buffer
  have distinct : address ≠ own := by
    rintro rfl
    exact other memory_eq
  rw [heap_eq, Finmap.lookup_insert_of_ne _ distinct]

theorem Embeds.lookup_own (embeds : Embeds C frame s m) {address : Nat}
    (own : m.this.memory = some address) : frame.lookup address = none := by
  obtain ⟨address', bytes, rest, fresh, memory_eq, -⟩ := embeds.buffer
  obtain rfl : address' = address := Option.some.inj (memory_eq.symm.trans own)
  exact Finmap.lookup_eq_none.mpr fresh

theorem Embeds.transport (embeds : Embeds C frame s m) (heap : Heap)
    (kept : ∀ address, m.this.memory = some address → heap.lookup address = m.heap.lookup address) :
    ∃ frame', Embeds C frame' s ⟨heap, m.this⟩ := by
  obtain ⟨address, bytes, rest, fresh, memory_eq, heap_eq, encodes⟩ := embeds.buffer
  have live : heap.lookup address = some (bytes ++ rest) := by
    rw [kept address memory_eq, heap_eq, Finmap.lookup_insert]
  exact ⟨heap.erase address, embeds.toAddressable, embeds.count_eq, embeds.capacity_eq,
    embeds.maxOffset_eq, embeds.bitMask_eq', address, bytes, rest, Finmap.notMem_erase_self, memory_eq,
    (insert_erase live).symm, encodes⟩

end Blocks

/-! ## The ledger -/

/-- The blocks of the heap are those of the live maps, one each, and the unowned ones. -/
structure Ledger [DecidableEq κ] (C : Codec κ υ) (unowned : Heap) (w : World ν)
    (status : ν → Status κ υ) : Prop where
  /-- A moved-from map has no buffer. -/
  detached : ∀ name, status name = .detached → (w.maps name).memory = none
  /-- A live map owns a block that holds its table. -/
  owned : ∀ name map, status name = .holds map → ∃ frame s, Embeds C frame s (w.machine name) ∧
    Invariant C.toTraits s ∧ Represents s map
  /-- No block has two owners. -/
  apart : ∀ name name', (status name).Live → (status name').Live →
    (w.maps name).memory = (w.maps name').memory → name = name'
  /-- Unowned blocks are live and keep their bytes. -/
  kept : ∀ address bytes, unowned.lookup address = some bytes → w.heap.lookup address = some bytes
  /-- No map owns an unowned block. -/
  foreign : ∀ name, (status name).Live → ∀ address, (w.maps name).memory = some address →
    unowned.lookup address = none
  /-- There are no other blocks. -/
  complete : ∀ address bytes, w.heap.lookup address = some bytes → unowned.lookup address = none →
    ∃ name, (status name).Live ∧ (w.maps name).memory = some address

namespace Ledger

variable [DecidableEq κ] [DecidableEq ν] {C : Codec κ υ} {unowned frame : Heap} {w : World ν}
  {status : ν → Status κ υ} {this : ν} {map : Finmap fun _ : κ => υ} {s : Hashmap κ υ} {m : Machine}

omit [DecidableEq ν] in
theorem start (heap : Heap) (maps : ν → Object) :
    Ledger C heap ⟨heap, maps⟩ fun _ => (.absent : Status κ υ) where
  detached _ absent := nomatch absent
  owned _ _ absent := nomatch absent
  apart _ _ live := live.elim
  kept _ _ live := live
  foreign _ live := live.elim
  complete _ _ live missing := by
    rw [live] at missing
    cases missing

/-- A map gives its block back. -/
theorem vacate (ledger : Ledger C unowned w status) (live : (status this).Live)
    (embeds : Embeds C frame s (w.machine this)) :
    Ledger C unowned ⟨frame, w.maps⟩ (Function.update status this .absent) where
  detached name is_detached := by
    by_cases same : name = this
    · subst name
      rw [Function.update_self] at is_detached
      cases is_detached
    · rw [Function.update_of_ne same] at is_detached
      exact ledger.detached name is_detached
  owned name map holds := by
    have live' : (Function.update status this .absent name).Live := by
      rw [holds]
      trivial
    obtain ⟨distinct, name_live⟩ := Status.live_update id live'
    rw [Function.update_of_ne distinct] at holds
    obtain ⟨frame', s', embeds', invariant, represents⟩ := ledger.owned name map holds
    obtain ⟨frame'', embeds''⟩ := embeds'.transport frame fun address own =>
      embeds.lookup_frame fun same => distinct (ledger.apart name this name_live live
        (own.trans same.symm))
    exact ⟨frame'', s', embeds'', invariant, represents⟩
  apart name name' name_live name_live' same :=
    ledger.apart name name' (Status.live_update id name_live).2 (Status.live_update id name_live').2 same
  kept address bytes unowned_eq := by
    refine (embeds.lookup_frame fun own => ?_).trans (ledger.kept address bytes unowned_eq)
    rw [ledger.foreign this live address own] at unowned_eq
    cases unowned_eq
  foreign name name_live := ledger.foreign name (Status.live_update id name_live).2
  complete address bytes lookup_eq missing := by
    have other : (w.maps this).memory ≠ some address := by
      intro own
      have gone : frame.lookup address = none := embeds.lookup_own own
      rw [lookup_eq] at gone
      cases gone
    have before : w.heap.lookup address = some bytes :=
      (embeds.lookup_frame other).symm.trans lookup_eq
    obtain ⟨name, name_live, own⟩ := ledger.complete address bytes before missing
    have distinct : name ≠ this := by
      rintro rfl
      exact other own
    exact ⟨name, by rwa [Function.update_of_ne distinct], own⟩

omit [DecidableEq ν] in
theorem block_live (ledger : Ledger C unowned w status) {name : ν} (live : (status name).Live)
    {address : Nat} (own : (w.maps name).memory = some address) :
    w.heap.lookup address ≠ none := by
  cases holds : status name with
  | absent | detached =>
      rw [holds] at live
      exact live.elim
  | holds map' =>
      obtain ⟨frame', s', embeds', -⟩ := ledger.owned name map' holds
      obtain ⟨address', bytes', rest, -, memory_eq, heap_eq, -⟩ := embeds'.buffer
      obtain rfl : address' = address := Option.some.inj (memory_eq.symm.trans own)
      change (w.machine name).heap.lookup address' ≠ none
      rw [heap_eq, Finmap.lookup_insert]
      exact Option.some_ne_none (bytes' ++ rest)

/-- A name that stands for no map gets a new block. -/
theorem occupy (ledger : Ledger C unowned w status) (this : ν) (not_live : ¬(status this).Live)
    (embeds : Embeds C w.heap s m) (invariant : Invariant C.toTraits s)
    (represents : Represents s map) :
    Ledger C unowned (w.withMachine this m) (Function.update status this (.holds map)) := by
  obtain ⟨own, bytes, rest, fresh, memory_eq, heap_eq, -⟩ := id embeds.buffer
  have absent : w.heap.lookup own = none := Finmap.lookup_eq_none.mpr fresh
  have other_block : ∀ address, address ≠ own → m.heap.lookup address = w.heap.lookup address := by
    intro address distinct
    rw [heap_eq, Finmap.lookup_insert_of_ne _ distinct]
  have not_own : ∀ name, (status name).Live → ∀ address, (w.maps name).memory = some address →
      address ≠ own := by
    rintro name live address own_eq rfl
    exact ledger.block_live live own_eq absent
  have other_map : ∀ {name}, name ≠ this → (w.withMachine this m).maps name = w.maps name :=
    w.maps_withMachine_of_ne m
  have this_map : (w.withMachine this m).maps this = m.this := w.maps_withMachine_self this m
  have other_status : ∀ {name}, name ≠ this →
      Function.update status this (.holds map) name = status name :=
    fun distinct => Function.update_of_ne distinct ..
  constructor
  · intro name is_detached
    have distinct : name ≠ this := by
      rintro rfl
      rw [Function.update_self] at is_detached
      cases is_detached
    rw [other_status distinct] at is_detached
    rw [other_map distinct]
    exact ledger.detached name is_detached
  · intro name map' holds
    by_cases same : name = this
    · subst name
      rw [Function.update_self] at holds
      obtain rfl := Status.holds.inj holds
      refine ⟨w.heap, s, ?_, invariant, represents⟩
      rw [World.machine, this_map]
      exact embeds
    · rw [other_status same] at holds
      have live : (status name).Live := by
        rw [holds]
        trivial
      obtain ⟨frame', s', embeds', invariant', represents'⟩ := ledger.owned name map' holds
      obtain ⟨frame'', embeds''⟩ := embeds'.transport m.heap fun address own_eq =>
        other_block address (not_own name live address own_eq)
      refine ⟨frame'', s', ?_, invariant', represents'⟩
      rw [World.machine, other_map same]
      exact embeds''
  · have crossed : ∀ name, name ≠ this → (status name).Live →
        (w.maps name).memory ≠ m.this.memory := by
      intro name distinct live same
      exact not_own name live own (same.trans memory_eq) rfl
    intro name name' live live' same
    by_cases here : name = this
    · by_cases here' : name' = this
      · rw [here, here']
      · subst name
        rw [this_map, other_map here'] at same
        rw [other_status here'] at live'
        exact (crossed name' here' live' same.symm).elim
    · rw [other_status here] at live
      rw [other_map here] at same
      by_cases here' : name' = this
      · subst name'
        rw [this_map] at same
        exact (crossed name here live same).elim
      · rw [other_status here'] at live'
        rw [other_map here'] at same
        exact ledger.apart name name' live live' same
  · intro address bytes' unowned_eq
    have before := ledger.kept address bytes' unowned_eq
    refine (other_block address ?_).trans before
    rintro rfl
    rw [absent] at before
    cases before
  · intro name live address own_eq
    by_cases here : name = this
    · subst name
      rw [this_map, memory_eq] at own_eq
      obtain rfl := Option.some.inj own_eq
      by_contra listed
      obtain ⟨bytes', unowned_eq⟩ := Option.ne_none_iff_exists'.mp listed
      have before := ledger.kept _ bytes' unowned_eq
      rw [absent] at before
      cases before
    · rw [other_map here] at own_eq
      rw [other_status here] at live
      exact ledger.foreign name live address own_eq
  · intro address bytes' lookup_eq missing
    by_cases here : address = own
    · subst address
      refine ⟨this, ?_, ?_⟩
      · rw [Function.update_self]
        trivial
      · rw [this_map, memory_eq]
    · have before := (other_block address here).symm.trans lookup_eq
      obtain ⟨name, live, own_eq⟩ := ledger.complete address bytes' before missing
      have distinct : name ≠ this := by
        rintro rfl
        exact not_live live
      refine ⟨name, ?_, ?_⟩
      · rwa [other_status distinct]
      · rwa [other_map distinct]

/-- A name that stands for no map stands for another of the other two statuses, and its members
change. -/
theorem replace (ledger : Ledger C unowned w status) (this : ν) (value : Status κ υ)
    (object : Object) (not_live : ¬(status this).Live) (still_not : ¬value.Live)
    (null : value = .detached → object.memory = none) :
    Ledger C unowned (w.withMachine this ⟨w.heap, object⟩)
      (Function.update status this value) := by
  have other_map : ∀ {name}, name ≠ this →
      (w.withMachine this ⟨w.heap, object⟩).maps name = w.maps name :=
    w.maps_withMachine_of_ne _
  constructor
  · intro name is_detached
    by_cases same : name = this
    · subst name
      rw [Function.update_self] at is_detached
      rw [World.maps_withMachine_self]
      exact null is_detached
    · rw [Function.update_of_ne same] at is_detached
      rw [other_map same]
      exact ledger.detached name is_detached
  · intro name map' holds
    have live : (Function.update status this value name).Live := by
      rw [holds]
      trivial
    obtain ⟨distinct, -⟩ := Status.live_update still_not live
    rw [Function.update_of_ne distinct] at holds
    rw [World.machine, other_map distinct]
    exact ledger.owned name map' holds
  · intro name name' live live' same
    obtain ⟨distinct, before⟩ := Status.live_update still_not live
    obtain ⟨distinct', before'⟩ := Status.live_update still_not live'
    rw [other_map distinct, other_map distinct'] at same
    exact ledger.apart name name' before before' same
  · exact ledger.kept
  · intro name live address own_eq
    obtain ⟨distinct, before⟩ := Status.live_update still_not live
    rw [other_map distinct] at own_eq
    exact ledger.foreign name before address own_eq
  · intro address bytes lookup_eq missing
    obtain ⟨name, live, own_eq⟩ := ledger.complete address bytes lookup_eq missing
    have distinct : name ≠ this := by
      rintro rfl
      exact not_live live
    refine ⟨name, ?_, ?_⟩
    · rwa [Function.update_of_ne distinct]
    · rwa [other_map distinct]

/-- A map loses its block without giving it back. -/
theorem abandon (ledger : Ledger C unowned w status) (live : (status this).Live) {address : Nat}
    {bytes : List (BitVec 8)} (own : (w.maps this).memory = some address)
    (block : w.heap.lookup address = some bytes) :
    Ledger C (unowned.insert address bytes) w (Function.update status this .absent) := by
  have others : ∀ {name}, name ≠ this → (status name).Live → ∀ address',
      (w.maps name).memory = some address' → address' ≠ address := by
    rintro name distinct name_live address' own' rfl
    exact distinct (ledger.apart name this name_live live (own'.trans own.symm))
  constructor
  · intro name is_detached
    by_cases same : name = this
    · subst name
      rw [Function.update_self] at is_detached
      cases is_detached
    · rw [Function.update_of_ne same] at is_detached
      exact ledger.detached name is_detached
  · intro name map' holds
    have name_live : (Function.update status this .absent name).Live := by
      rw [holds]
      trivial
    obtain ⟨distinct, -⟩ := Status.live_update id name_live
    rw [Function.update_of_ne distinct] at holds
    exact ledger.owned name map' holds
  · intro name name' name_live name_live' same
    exact ledger.apart name name' (Status.live_update id name_live).2
      (Status.live_update id name_live').2 same
  · intro address' bytes' unowned_eq
    by_cases here : address' = address
    · subst address'
      rw [Finmap.lookup_insert] at unowned_eq
      rw [block, ← unowned_eq]
    · rw [Finmap.lookup_insert_of_ne _ here] at unowned_eq
      exact ledger.kept address' bytes' unowned_eq
  · intro name name_live address' own'
    obtain ⟨distinct, before⟩ := Status.live_update id name_live
    rw [Finmap.lookup_insert_of_ne _ (others distinct before address' own')]
    exact ledger.foreign name before address' own'
  · intro address' bytes' lookup_eq missing
    have elsewhere : address' ≠ address := by
      rintro rfl
      rw [Finmap.lookup_insert] at missing
      cases missing
    rw [Finmap.lookup_insert_of_ne _ elsewhere] at missing
    obtain ⟨name, name_live, own'⟩ := ledger.complete address' bytes' lookup_eq missing
    have distinct : name ≠ this := by
      rintro rfl
      exact elsewhere (Option.some.inj (own'.symm.trans own))
    exact ⟨name, by rwa [Function.update_of_ne distinct], own'⟩

omit [DecidableEq ν] in
theorem heap_eq (ledger : Ledger C unowned w status) (no_maps : ∀ name, ¬(status name).Live) :
    w.heap = unowned := by
  apply Finmap.ext_lookup
  intro address
  cases listed : unowned.lookup address with
  | some bytes => exact ledger.kept address bytes listed
  | none =>
      cases live : w.heap.lookup address with
      | none => rfl
      | some bytes =>
          obtain ⟨name, name_live, -⟩ := ledger.complete address bytes live listed
          exact (no_maps name name_live).elim

end Ledger

end RobinHoodHashmap
