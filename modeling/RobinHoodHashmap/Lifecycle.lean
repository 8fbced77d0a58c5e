import RobinHoodHashmap.Ledger

/-!
# Programs over several maps

A client constructs, copies, moves, assigns, calls and destroys maps on one heap in any order.  The
specification knows no heap: every name stands for a finite map of its own.  Programs that use names
as the language allows answer as the specification says, and what they leave on the heap is one block
for every move assignment between two maps.
-/

namespace RobinHoodHashmap

open CHeap Execution

variable {κ υ ν : Type}

/-- Statements of a client that holds maps by name. -/
inductive Command (κ υ ν : Type) where
  /-- `robin_hood_hashmap(uint32_t capacity)`. -/
  | construct (this : ν) (capacity : BitVec 32)
  /-- `robin_hood_hashmap(const robin_hood_hashmap&)`. -/
  | copyConstruct (this other : ν)
  /-- `robin_hood_hashmap(robin_hood_hashmap&&)`. -/
  | moveConstruct (this other : ν)
  /-- `operator=(const robin_hood_hashmap&)`. -/
  | copyAssign (this other : ν)
  /-- `operator=(robin_hood_hashmap&&)`. -/
  | moveAssign (this other : ν)
  /-- A call of another member function. -/
  | call (this : ν) (op : Op κ υ)
  /-- `~robin_hood_hashmap()`. -/
  | destroy (this : ν)

/-! ## On the heap -/

section Execute

variable [BEq κ] [DecidableEq ν] (C : Codec κ υ) (calloc : Heap → Nat → Heap × Pointer)
  (realloc : Heap → Pointer → Nat → Heap × Pointer)

/-- One statement: its answer, if it is a call, and the world after it. -/
def execute (w : World ν) : Command κ υ ν → ByteExec (Option (Answer υ) × World ν)
  | .construct this capacity => do
      let m ← Machine.construct C calloc w.heap capacity
      pure (none, w.withMachine this m)
  | .copyConstruct this other => do
      let m ← Machine.copyConstruct C calloc w.heap (w.maps other)
      pure (none, w.withMachine this m)
  | .moveConstruct this other => pure (none, w.moveConstruct this other)
  | .copyAssign this other => do
      let w ← copyAssign realloc C.toLayout w this other
      pure (none, w)
  | .moveAssign this other => do
      let w ← moveAssign realloc C.toLayout w this other
      pure (none, w)
  | .call this op => do
      let (answer, m) ← Machine.step C calloc (w.machine this) op
      pure (some answer, w.withMachine this m)
  | .destroy this => do
      let heap ← (w.machine this).destroy
      pure (none, { w with heap })

/-- A sequence of statements. -/
def program (w : World ν) : List (Command κ υ ν) → ByteExec (List (Option (Answer υ)) × World ν)
  | [] => pure ([], w)
  | command :: commands => do
      let (answer, w) ← execute C calloc realloc w command
      let (answers, w) ← program w commands
      pure (answer :: answers, w)

end Execute

/-! ## What programs mean -/

section Meaning

variable [DecidableEq κ] [DecidableEq ν]

namespace Command

/-- Names are used as the language allows: constructed once before use, moved-from maps only moved
and destroyed. -/
def Allowed (status : ν → Status κ υ) : Command κ υ ν → Prop
  | construct this capacity => status this = .absent ∧ 32 ≤ capacity.toNat
  | copyConstruct this other => status this = .absent ∧ (status other).Live
  | moveConstruct this other => status this = .absent ∧ status other ≠ .absent
  | copyAssign this other => (status this).Live ∧ (status other).Live
  | moveAssign this other => (status this).Live ∧ (status other).Live
  | call this _ => (status this).Live
  | destroy this => status this ≠ .absent

/-- Answer and statuses after a statement. -/
def meaning (T : Traits κ υ) (status : ν → Status κ υ) :
    Command κ υ ν → Option (Answer υ) × (ν → Status κ υ)
  | construct this _ => (none, Function.update status this (.holds ∅))
  | copyConstruct this other => (none, Function.update status this (status other))
  | moveConstruct this other =>
      (none, Function.update (Function.update status this (status other)) other .detached)
  | copyAssign this other => (none, Function.update status this (status other))
  | moveAssign this other =>
      if this = other then (none, status)
      else (none, Function.update (Function.update status this (status other)) other .detached)
  | call this op =>
      match status this with
      | .holds map =>
          (some (reference T map op).1, Function.update status this (.holds (reference T map op).2))
      | _ => (none, status)
  | destroy this => (none, Function.update status this .absent)

/-- Blocks a statement leaves without an owner. -/
def leaks : Command κ υ ν → Nat
  | moveAssign this other => if this = other then 0 else 1
  | _ => 0

end Command

/-- Answers and statuses after a sequence of statements. -/
def programMeaning (T : Traits κ υ) (status : ν → Status κ υ) :
    List (Command κ υ ν) → List (Option (Answer υ)) × (ν → Status κ υ)
  | [] => ([], status)
  | command :: commands =>
      let (answer, status) := command.meaning T status
      let (answers, status) := programMeaning T status commands
      (answer :: answers, status)

/-- Every statement is allowed where it is executed. -/
def AllowedAlong (T : Traits κ υ) (status : ν → Status κ υ) : List (Command κ υ ν) → Prop
  | [] => True
  | command :: commands =>
      command.Allowed status ∧ AllowedAlong T (command.meaning T status).2 commands

end Meaning

/-! ## Statements keep the ledger -/

section Statements

variable [BEq κ] [LawfulBEq κ] [DecidableEq κ] [DecidableEq ν] {C : Codec κ υ}
  {calloc : Heap → Nat → Heap × Pointer} {realloc : Heap → Pointer → Nat → Heap × Pointer}
  {unowned : Heap} {w : World ν} {status : ν → Status κ υ} {this other : ν}

omit [LawfulBEq κ] in
theorem Ledger.construct (callocs : Callocs calloc) (ledger : Ledger C unowned w status)
    (absent : status this = .absent) {capacity : BitVec 32} (capacity_ge : 32 ≤ capacity.toNat)
    (unfailing : Unfailing (execute C calloc realloc w (.construct this capacity))) :
    ∃ w', (execute C calloc realloc w (.construct this capacity)).result = .ok (none, w') ∧
      Ledger C unowned w' (Function.update status this (.holds ∅)) := by
  have constructs : (RobinHoodHashmap.construct C.toTraits capacity).result = .ok _ :=
    congrArg Execution.result (construct_eq C.toTraits (ne_zero_of_block capacity_ge))
  obtain ⟨m, constructed, embeds⟩ :=
    (construct_refines callocs w.heap capacity_ge).result_right unfailing.first constructs
  obtain ⟨invariant, entries_nil⟩ := freshTable_spec C.toTraits capacity_ge
  refine ⟨w.withMachine this m, by rw [execute, result_bind_of_ok constructed, result_pure], ?_⟩
  exact ledger.occupy this (by rw [absent]; exact id) embeds invariant
    (Represents.of_entries_nil entries_nil)

omit [LawfulBEq κ] in
theorem Ledger.copyConstruct (callocs : Callocs calloc) (ledger : Ledger C unowned w status)
    (absent : status this = .absent) (live : (status other).Live)
    (unfailing : Unfailing (execute C calloc realloc w (.copyConstruct this other))) :
    ∃ w', (execute C calloc realloc w (.copyConstruct this other)).result = .ok (none, w') ∧
      Ledger C unowned w' (Function.update status this (status other)) := by
  obtain ⟨map, holds⟩ := live.exists_holds
  obtain ⟨frame, s, embeds, invariant, represents⟩ := ledger.owned other map holds
  obtain ⟨copied, copied_eq, embeds'⟩ :=
    (embeds.copyConstruct_refines callocs).result_right unfailing.first (result_pure s)
  have returned : (Machine.copyConstruct C calloc w.heap (w.maps other)).result = .ok copied :=
    copied_eq
  refine ⟨w.withMachine this copied, by rw [execute, result_bind_of_ok returned, result_pure], ?_⟩
  rw [holds]
  exact ledger.occupy this (by rw [absent]; exact id) embeds' invariant represents

variable (calloc realloc) in
omit [LawfulBEq κ] in
theorem Ledger.destroy (ledger : Ledger C unowned w status) (present : status this ≠ .absent) :
    ∃ w', execute C calloc realloc w (.destroy this) = pure (none, w') ∧
      Ledger C unowned w' (Function.update status this .absent) := by
  cases found : status this with
  | absent => exact (present found).elim
  | detached =>
      have null : (w.machine this).this.memory = none := ledger.detached this found
      refine ⟨w, ?_, ?_⟩
      · rw [execute, Machine.destroy, null]
        rfl
      · have distinct : (.absent : Status κ υ) ≠ .detached := by
          intro same
          cases same
        have replaced := ledger.replace this .absent (w.maps this) (by rw [found]; exact id) id
          fun same => (distinct same).elim
        rwa [World.withMachine, Function.update_eq_self] at replaced
  | holds map =>
      obtain ⟨frame, s, embeds, -⟩ := ledger.owned this map found
      refine ⟨⟨frame, w.maps⟩, by rw [execute, embeds.destroy_eq]; rfl, ?_⟩
      exact ledger.vacate (by rw [found]; trivial) embeds

theorem Ledger.call (callocs : Callocs calloc) (ledger : Ledger C unowned w status)
    {map : Finmap fun _ : κ => υ} (holds : status this = .holds map) (op : Op κ υ)
    (unfailing : Unfailing (execute C calloc realloc w (.call this op))) :
    ∃ w', (execute C calloc realloc w (.call this op)).result =
        .ok (some (reference C.toTraits map op).1, w') ∧
      Ledger C unowned w'
        (Function.update status this (.holds (reference C.toTraits map op).2)) := by
  have live : (status this).Live := by
    rw [holds]
    trivial
  obtain ⟨frame, s, embeds, invariant, represents⟩ := ledger.owned this map holds
  have alike := step_embeds (C := C) callocs embeds op
  obtain ⟨s', returned, invariant', represents'⟩ :=
    step_refines invariant represents op (alike.follows unfailing.first).2
  obtain ⟨⟨answer, m⟩, machine_returned, answer_eq, embeds'⟩ :=
    alike.result_right unfailing.first returned
  obtain rfl : (reference C.toTraits map op).1 = answer := answer_eq
  refine ⟨w.withMachine this m, ?_, ?_⟩
  · rw [execute, result_bind_of_ok machine_returned, result_pure]
  · have vacated := ledger.vacate live embeds
    have occupied := vacated.occupy this (by rw [Function.update_self]; exact id) embeds'
      invariant' represents'
    rwa [Function.update_idem] at occupied

omit [BEq κ] [LawfulBEq κ] in
theorem Ledger.moveConstruct (ledger : Ledger C unowned w status) (absent : status this = .absent)
    (present : status other ≠ .absent) :
    Ledger C unowned (w.moveConstruct this other)
      (Function.update (Function.update status this (status other)) other .detached) := by
  have distinct : this ≠ other := by
    rintro rfl
    exact present absent
  cases found : status other with
  | absent => exact (present found).elim
  | detached =>
      have null := ledger.detached other found
      have first := ledger.replace this .detached (w.maps other) (by rw [absent]; exact id) id fun _ => null
      exact first.replace other .detached { w.maps other with memory := none }
        (by rw [Function.update_of_ne distinct.symm, found]; exact id) id fun _ => rfl
  | holds map =>
      obtain ⟨frame, s, embeds, invariant, represents⟩ := ledger.owned other map found
      have vacated := ledger.vacate (by rw [found]; trivial) embeds
      have occupied := vacated.occupy this (by
        rw [Function.update_of_ne distinct, absent]
        exact id) embeds invariant represents
      have detached := occupied.replace other .detached { w.maps other with memory := none }
        (by rw [Function.update_of_ne distinct.symm, Function.update_self]; exact id) id fun _ => rfl
      rw [Function.update_comm distinct, Function.update_idem] at detached
      rwa [Function.update_comm distinct]

omit [BEq κ] [LawfulBEq κ] in
/-- The common part of the assignments, when `realloc` keeps the address. -/
theorem Ledger.overwriteBuffer (reallocs : Reallocs realloc) (ledger : Ledger C unowned w status)
    (distinct : this ≠ other) (this_live : (status this).Live) (other_live : (status other).Live)
    (unfailing : Unfailing (RobinHoodHashmap.overwriteBuffer realloc C.toLayout w this other)) :
    ∃ w', (RobinHoodHashmap.overwriteBuffer realloc C.toLayout w this other).result = .ok w' ∧
      w'.maps other = w.maps other ∧
      Ledger C unowned w' (Function.update status this (status other)) := by
  obtain ⟨map, this_holds⟩ := this_live.exists_holds
  obtain ⟨map', other_holds⟩ := other_live.exists_holds
  obtain ⟨frame, d, target, -⟩ := ledger.owned this map this_holds
  obtain ⟨frame', s, source, invariant, represents⟩ := ledger.owned other map' other_holds
  obtain ⟨address, old, slack, fresh, target_memory, heap_eq, -⟩ := id target.buffer
  obtain ⟨address', stores⟩ := World.stores_of_embeds source
  have memory_eq : (w.maps this).memory = some address := target_memory
  have w_heap : w.heap = frame.insert address (old ++ slack) := heap_eq
  have apart : address ≠ address' := by
    rintro rfl
    exact distinct (ledger.apart this other this_live other_live
      (memory_eq.trans stores.memory_eq.symm))
  obtain ⟨w', new, overwritten, stores', resized, maps_eq⟩ :=
    overwriteBuffer_of_unfailing reallocs memory_eq (by rw [w_heap, Finmap.lookup_insert]) stores apart
      unfailing
  have embeds := stores'.embeds source.toAddressable
  rw [resized, w_heap, Finmap.insert_insert, erase_insert fresh] at embeds
  have occupied := (ledger.vacate this_live target).occupy this
    (by rw [Function.update_self]; exact id) embeds invariant represents
  have world_eq : (⟨frame, w.maps⟩ : World ν).withMachine this (w'.machine this) = w' := by
    obtain ⟨heap', maps'⟩ := w'
    obtain rfl : maps' = _ := maps_eq
    simp only [World.withMachine, World.machine, Function.update_self]
  rw [Function.update_idem, ← other_holds, world_eq] at occupied
  exact ⟨w', overwritten, by rw [maps_eq, Function.update_of_ne distinct.symm], occupied⟩

variable (calloc) in
omit [LawfulBEq κ] in
theorem Ledger.copyAssign (reallocs : Reallocs realloc) (ledger : Ledger C unowned w status)
    (this_live : (status this).Live) (other_live : (status other).Live)
    (unfailing : Unfailing (execute C calloc realloc w (.copyAssign this other))) :
    ∃ w', (execute C calloc realloc w (.copyAssign this other)).result = .ok (none, w') ∧
      Ledger C unowned w' (Function.update status this (status other)) := by
  have assign_unfailing : Unfailing (RobinHoodHashmap.copyAssign realloc C.toLayout w this other) :=
    unfailing.first
  by_cases same : this = other
  · subst other
    refine ⟨w, ?_, by rwa [Function.update_eq_self]⟩
    rw [execute, RobinHoodHashmap.copyAssign, if_neg (not_not_intro rfl)]
    rfl
  · rw [RobinHoodHashmap.copyAssign, if_pos same] at assign_unfailing
    obtain ⟨w', overwritten, -, ledger'⟩ :=
      ledger.overwriteBuffer reallocs same this_live other_live assign_unfailing
    refine ⟨w', ?_, ledger'⟩
    rw [execute, RobinHoodHashmap.copyAssign, if_pos same, result_bind_of_ok overwritten, result_pure]

variable (calloc) in
omit [LawfulBEq κ] in
/-- The block of the source stays behind. -/
theorem Ledger.moveAssign (reallocs : Reallocs realloc) (ledger : Ledger C unowned w status)
    (distinct : this ≠ other) (this_live : (status this).Live) (other_live : (status other).Live)
    (unfailing : Unfailing (execute C calloc realloc w (.moveAssign this other))) :
    ∃ w' unowned', (execute C calloc realloc w (.moveAssign this other)).result = .ok (none, w') ∧
      Ledger C unowned' w'
        (Function.update (Function.update status this (status other)) other .detached) ∧
      Leaks unowned unowned' 1 := by
  obtain ⟨map, holds⟩ := other_live.exists_holds
  have assign_unfailing : Unfailing (RobinHoodHashmap.moveAssign realloc C.toLayout w this other) :=
    unfailing.first
  rw [RobinHoodHashmap.moveAssign, if_pos distinct] at assign_unfailing
  obtain ⟨w', overwritten, members, ledger'⟩ :=
    ledger.overwriteBuffer reallocs distinct this_live other_live assign_unfailing.first
  have still_live : (Function.update status this (status other) other).Live := by
    rwa [Function.update_of_ne distinct.symm]
  obtain ⟨frame, s, embeds, -⟩ := ledger'.owned other map (by
    rw [Function.update_of_ne distinct.symm, holds])
  obtain ⟨address, bytes, rest, -, memory_eq, heap_eq, -⟩ := embeds.buffer
  have block : w'.heap.lookup address = some (bytes ++ rest) := by
    change (w'.machine other).heap.lookup address = some (bytes ++ rest)
    rw [heap_eq, Finmap.lookup_insert]
  have abandoned := ledger'.abandon still_live memory_eq block
  have detached := abandoned.replace other .detached { w'.maps other with memory := none }
    (by rw [Function.update_self]; exact id) id fun _ => rfl
  rw [Function.update_idem] at detached
  refine ⟨_, unowned.insert address (bytes ++ rest), ?_, detached,
    Leaks.insert (ledger'.foreign other still_live address memory_eq) (bytes ++ rest)⟩
  rw [execute, RobinHoodHashmap.moveAssign, if_pos distinct, bind_assoc, result_bind_of_ok overwritten]
  rfl

/-! ## Programs -/

/-- An allowed statement that meets no failure returns what it means and keeps a ledger. -/
theorem execute_refines (callocs : Callocs calloc) (reallocs : Reallocs realloc)
    (ledger : Ledger C unowned w status) {command : Command κ υ ν} (allowed : command.Allowed status)
    (unfailing : Unfailing (execute C calloc realloc w command)) :
    ∃ w' unowned', (execute C calloc realloc w command).result =
        .ok ((command.meaning C.toTraits status).1, w') ∧
      Ledger C unowned' w' (command.meaning C.toTraits status).2 ∧
      Leaks unowned unowned' command.leaks := by
  cases command with
  | construct this capacity =>
      obtain ⟨w', executed, ledger'⟩ := ledger.construct callocs allowed.1 allowed.2 unfailing
      exact ⟨w', unowned, executed, ledger', Leaks.refl unowned⟩
  | copyConstruct this other =>
      obtain ⟨w', executed, ledger'⟩ := ledger.copyConstruct callocs allowed.1 allowed.2 unfailing
      exact ⟨w', unowned, executed, ledger', Leaks.refl unowned⟩
  | moveConstruct this other =>
      exact ⟨_, unowned, rfl, ledger.moveConstruct allowed.1 allowed.2, Leaks.refl unowned⟩
  | copyAssign this other =>
      obtain ⟨w', executed, ledger'⟩ :=
        ledger.copyAssign calloc reallocs allowed.1 allowed.2 unfailing
      exact ⟨w', unowned, executed, ledger', Leaks.refl unowned⟩
  | moveAssign this other =>
      by_cases same : this = other
      · subst other
        refine ⟨w, unowned, ?_, ?_, ?_⟩
        · rw [execute, RobinHoodHashmap.moveAssign, if_neg (not_not_intro rfl), Command.meaning,
            if_pos rfl]
          rfl
        · rwa [Command.meaning, if_pos rfl]
        · rw [Command.leaks, if_pos rfl]
          exact Leaks.refl unowned
      · obtain ⟨w', unowned', executed, ledger', leaks⟩ :=
          ledger.moveAssign calloc reallocs same allowed.1 allowed.2 unfailing
        rw [Command.meaning, if_neg same, Command.leaks, if_neg same]
        exact ⟨w', unowned', executed, ledger', leaks⟩
  | call this op =>
      obtain ⟨map, holds⟩ := Status.Live.exists_holds allowed
      obtain ⟨w', returned, ledger'⟩ := ledger.call callocs holds op unfailing
      refine ⟨w', unowned, ?_, ?_, Leaks.refl unowned⟩
      · rw [returned, Command.meaning, holds]
      · rwa [Command.meaning, holds]
  | destroy this =>
      obtain ⟨w', executed, ledger'⟩ := ledger.destroy calloc realloc allowed
      exact ⟨w', unowned, by rw [executed]; rfl, ledger', Leaks.refl unowned⟩

/-- Blocks a program leaves without an owner. -/
def leaksOf (commands : List (Command κ υ ν)) : Nat := (commands.map Command.leaks).sum

theorem program_keeps_ledger (callocs : Callocs calloc) (reallocs : Reallocs realloc)
    (commands : List (Command κ υ ν)) (ledger : Ledger C unowned w status)
    (allowed : AllowedAlong C.toTraits status commands)
    (unfailing : Unfailing (program C calloc realloc w commands)) :
    ∃ w' unowned', (program C calloc realloc w commands).result =
        .ok ((programMeaning C.toTraits status commands).1, w') ∧
      Ledger C unowned' w' (programMeaning C.toTraits status commands).2 ∧
      Leaks unowned unowned' (leaksOf commands) := by
  induction commands generalizing w status unowned with
  | nil => exact ⟨w, unowned, rfl, ledger, Leaks.refl unowned⟩
  | cons command commands induction =>
      obtain ⟨w₁, unowned₁, executed, ledger₁, leaks₁⟩ :=
        execute_refines callocs reallocs ledger allowed.1 unfailing.first
      have rest_unfailing : Unfailing (program C calloc realloc w₁ commands) :=
        (unfailing.next executed).first
      obtain ⟨w', unowned', returned, ledger', leaks'⟩ := induction ledger₁ allowed.2 rest_unfailing
      refine ⟨w', unowned', ?_, ledger', leaks₁.trans leaks'⟩
      rw [program, result_bind_of_ok executed, result_bind_of_ok returned]
      rfl

/-- Programs over several maps that use names as `Allowed` says, overflow no doubling and meet no
failing allocation make only accesses inside live blocks and answer as independent finite maps do.
Besides what was there and the blocks of the maps still alive they leave one block for each move
assignment between two maps, so that a program that ends without maps gives the heap back exactly when
it makes no such assignment. -/
theorem program_refines (C : Codec κ υ) (callocs : Callocs calloc) (reallocs : Reallocs realloc)
    (heap : Heap) (maps : ν → Object) (commands : List (Command κ υ ν))
    (allowed : AllowedAlong C.toTraits (fun _ => .absent) commands)
    (unfailing : Unfailing (program C calloc realloc ⟨heap, maps⟩ commands)) :
    ∃ w unowned, (program C calloc realloc ⟨heap, maps⟩ commands).result =
        .ok ((programMeaning C.toTraits (fun _ => .absent) commands).1, w) ∧
      Ledger C unowned w (programMeaning C.toTraits (fun _ => .absent) commands).2 ∧
      Leaks heap unowned (leaksOf commands) ∧
      ((∀ name, ¬((programMeaning C.toTraits (fun _ => .absent) commands).2 name).Live) →
        (w.heap = heap ↔ leaksOf commands = 0)) := by
  obtain ⟨w, unowned, returned, ledger, leaks⟩ :=
    program_keeps_ledger callocs reallocs commands (Ledger.start heap maps) allowed unfailing
  refine ⟨w, unowned, returned, ledger, leaks, fun no_maps => ?_⟩
  rw [ledger.heap_eq no_maps]
  constructor
  · rintro rfl
    have card_eq := leaks.card_eq
    omega
  · intro no_leaks
    rw [no_leaks] at leaks
    exact leaks.eq_of_zero

end Statements

/-- Two maps, one copied from the other, and a move assignment between them. -/
def twoLives : List (Command (BitVec 64) (BitVec 64) Bool) :=
  [.construct true 32#32, .call true (.insert 5#64 7#64), .copyConstruct false true,
    .call false (.write 5#64 8#64), .call true (.find 5#64), .moveAssign true false,
    .call true (.find 5#64), .destroy true, .destroy false]

/-- An object before its constructor. -/
def unbuilt : Object := ⟨0#32, 0#32, 0#32, 0#32, none⟩

theorem unfailing_twoLives :
    Unfailing (program tempCodec callocAfter reallocInPlace ⟨∅, fun _ => unbuilt⟩ twoLives) := by
  decide +kernel

/-- The copy keeps its own value, and the block it is assigned from is never freed. -/
theorem program_refines_twoLives :
    ∃ w, (program tempCodec callocAfter reallocInPlace ⟨∅, fun _ => unbuilt⟩ twoLives).result =
        .ok ([none, some .done, none, some .done, some (.pointer (some 7#64)), none,
          some (.pointer (some 8#64)), none, none], w) ∧ w.heap ≠ ∅ := by
  have allowed : AllowedAlong tempHash (fun _ => .absent) twoLives :=
    ⟨⟨rfl, by decide⟩, trivial, ⟨rfl, trivial⟩, trivial, trivial, ⟨trivial, trivial⟩, trivial, nofun,
      nofun, trivial⟩
  obtain ⟨w, unowned, returned, -, -, given_back⟩ := program_refines tempCodec callocs_callocAfter
    reallocs_reallocInPlace ∅ (fun _ => unbuilt) twoLives allowed unfailing_twoLives
  have answers : (programMeaning tempHash (fun _ => .absent) twoLives).1 = [none, some .done, none,
      some .done, some (.pointer (some 7#64)), none, some (.pointer (some 8#64)), none, none] := by
    decide +kernel
  have no_maps : ∀ name, ¬((programMeaning tempHash (fun _ => .absent) twoLives).2 name).Live := by
    intro name
    cases name <;> exact id
  refine ⟨w, answers ▸ returned, fun empty => ?_⟩
  exact absurd ((given_back no_maps).mp empty) (by decide)

end RobinHoodHashmap
