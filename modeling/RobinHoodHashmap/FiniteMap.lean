import RobinHoodHashmap.Run

/-!
# Refinement to a finite map

The purpose of the hash map is to be a finite map from keys to values.  The reference below answers
every call from a finite map alone; blocks, headers, tags, masks and growth do not occur in it.
-/

namespace RobinHoodHashmap

open Hashmap

variable {κ υ : Type}

section Reference

variable [DecidableEq κ]

/-- What a finite map answers to a call, and the finite map after it. -/
def reference (T : Traits κ υ) (m : Finmap fun _ : κ => υ) :
    Op κ υ → Answer υ × Finmap fun _ : κ => υ
  | .insert key value => (.done, m.insert key value)
  | .find key => (.pointer (m.lookup key), m)
  | .erase key =>
      match m.lookup key with
      | some value => (.value value, m.erase key)
      | none => (.value T.minusOne, m)
  | .read key =>
      match m.lookup key with
      | some value => (.value value, m)
      | none => (.value T.defaultValue, m.insert key T.defaultValue)
  | .write key value => (.done, m.insert key value)
  | .clear => (.done, ∅)
  | .copy => (.done, m)
  | .size => (.size m.keys.card, m)

/-- The answers to a sequence of calls. -/
def referenceRun (T : Traits κ υ) (m : Finmap fun _ : κ => υ) :
    List (Op κ υ) → List (Answer υ) × Finmap fun _ : κ => υ
  | [] => ([], m)
  | op :: ops =>
      let (answer, m) := reference T m op
      let (answers, m) := referenceRun T m ops
      (answer :: answers, m)

/-- A table stores exactly the bindings of a finite map. -/
def Represents (s : Hashmap κ υ) (m : Finmap fun _ : κ => υ) : Prop :=
  ∀ key value, m.lookup key = some value ↔ ⟨key, value⟩ ∈ s.entries

theorem crowding_eq_card {T : Traits κ υ} {s : Hashmap κ υ} (invariant : Invariant T s) (key : κ)
    (more : Nat) :
    s.crowding T key more = (s.keys.toFinset.filter fun other =>
      blockUnder (s.exponent + more) (T.hasher other) =
        blockUnder (s.exponent + more) (T.hasher key)).card := by
  rw [crowding, List.countP_eq_length_filter,
    ← List.toFinset_card_of_nodup (invariant.keys_nodup.filter _), List.toFinset_filter]
  simp

namespace Represents

variable {T : Traits κ υ} {s s' : Hashmap κ υ} {m : Finmap fun _ : κ => υ} {key : κ}

theorem of_entries_nil (entries_nil : s.entries = []) : Represents s ∅ := by
  intro key value
  simp [entries_nil]

theorem lookup_of_holds (represents : Represents s m) {place : Place} {value : υ}
    (holds : s.Holds place ⟨key, value⟩) : m.lookup key = some value :=
  (represents key value).mpr (mem_entries_of_holds holds)

theorem lookup_eq_none (represents : Represents s m) (absent : key ∉ s.keys) :
    m.lookup key = none := by
  cases found : m.lookup key with
  | none => rfl
  | some value => exact (absent (mem_keys.mpr ⟨value, (represents key value).mp found⟩)).elim

theorem keys_eq (represents : Represents s m) : m.keys = s.keys.toFinset := by
  ext key
  rw [Finmap.mem_keys, Finmap.mem_iff, List.mem_toFinset, mem_keys]
  exact exists_congr fun value => represents key value

theorem card_keys (represents : Represents s m) (invariant : Invariant T s) :
    m.keys.card = (size s).toNat := by
  rw [represents.keys_eq, List.toFinset_card_of_nodup invariant.keys_nodup, size,
    invariant.count_eq]
  exact List.length_map _

theorem exists_of_invariant (invariant : Invariant T s) :
    ∃ m : Finmap fun _ : κ => υ, Represents s m := by
  let bindings : List (Σ _ : κ, υ) := s.entries.map fun pair => ⟨pair.key, pair.value⟩
  refine ⟨bindings.toFinmap, fun key value => ?_⟩
  have nodup : bindings.NodupKeys := by
    have keys_eq : bindings.keys = s.keys := by
      simp [bindings, List.keys, Hashmap.keys]
    rw [List.NodupKeys, keys_eq]
    exact invariant.keys_nodup
  have member : value ∈ bindings.dlookup key ↔ ⟨key, value⟩ ∈ bindings :=
    List.mem_dlookup_iff nodup
  rw [Finmap.dlookup_list_toFinmap, ← Option.mem_def, member]
  constructor
  · intro listed
    obtain ⟨pair, pair_mem, pair_eq⟩ := List.mem_map.mp listed
    obtain ⟨rfl, rfl⟩ : pair.key = key ∧ pair.value = value := by
      simpa using pair_eq
    exact pair_mem
  · intro stored
    exact List.mem_map.mpr ⟨_, stored, rfl⟩

theorem crowding_eq (represents : Represents s m) (invariant : Invariant T s) (key : κ)
    (more : Nat) :
    s.crowding T key more = (m.keys.filter fun other =>
      blockUnder (s.exponent + more) (T.hasher other) =
        blockUnder (s.exponent + more) (T.hasher key)).card := by
  rw [represents.keys_eq, crowding_eq_card invariant]

variable [BEq κ] [LawfulBEq κ]

theorem assign (represents : Represents s m) {value : υ} (assigned : Assigned s s' key value) :
    Represents s' (m.insert key value) := by
  intro other bound
  rw [assigned.mem_iff, List.mem_cons, mem_withoutKey]
  by_cases same : other = key
  · subst other
    simp [Finmap.lookup_insert, eq_comm]
  · rw [Finmap.lookup_insert_of_ne m same, represents other bound]
    simp [same]

theorem remove (represents : Represents s m)
    (removed : s'.entries.Perm (withoutKey key s.entries)) : Represents s' (m.erase key) := by
  intro other bound
  rw [removed.mem_iff, mem_withoutKey]
  by_cases same : other = key
  · subst other
    simp [Finmap.lookup_erase]
  · rw [Finmap.lookup_erase_ne same, represents other bound]
    simp [same]

end Represents

end Reference

/-! ## Simulation -/

section Simulation

variable [BEq κ] [LawfulBEq κ] [DecidableEq κ] {T : Traits κ υ} {s : Hashmap κ υ}
  {m : Finmap fun _ : κ => υ}

/-- One call returns, keeps the invariant and answers as the finite map does. -/
theorem step_refines (invariant : Invariant T s) (represents : Represents s m) (op : Op κ υ)
    (no_wrap : NoWrap (step T s op)) :
    ∃ s', (step T s op).result = .ok ((reference T m op).1, s') ∧ Invariant T s' ∧
      Represents s' (reference T m op).2 := by
  cases op with
  | insert key value =>
      obtain ⟨s', returned, preserved, assigned⟩ := insert_spec invariant no_wrap.first
      refine ⟨s', ?_, preserved, represents.assign assigned⟩
      rw [step, Execution.result_bind_of_ok returned]
      rfl
  | find key =>
      rcases find_spec invariant key with ⟨place, value, found, holds⟩ | ⟨missing, absent⟩
      · refine ⟨s, ?_, invariant, represents⟩
        simp only [step, found, pure_bind, readValue_eq holds, Execution.result_pure, reference,
          represents.lookup_of_holds holds]
      · refine ⟨s, ?_, invariant, represents⟩
        simp only [step, missing, pure_bind, Execution.result_pure, reference,
          represents.lookup_eq_none absent]
  | erase key =>
      rcases erase_spec invariant key with
        ⟨value, s', erased, member, preserved, removed, -⟩ | ⟨missing, absent⟩
      · have bound := (represents key value).mpr member
        simp only [step, erased, pure_bind, Execution.result_pure, reference, bound]
        exact ⟨s', rfl, preserved, represents.remove removed⟩
      · simp only [step, missing, pure_bind, Execution.result_pure, reference,
          represents.lookup_eq_none absent]
        exact ⟨s, rfl, invariant, represents⟩
  | read key =>
      obtain ⟨place, value, s', returned, preserved, holds, effect⟩ :=
        index_spec invariant no_wrap.first
      have result_eq : (step T s (.read key)).result = .ok (.value value, s') := by
        rw [step, Execution.result_bind_of_ok returned]
        simp only [readValue_eq holds, pure_bind, Execution.result_pure]
      rcases effect with ⟨rfl, -⟩ | ⟨absent, rfl, -, -, assigned⟩
      · simp only [reference, represents.lookup_of_holds holds]
        exact ⟨s', result_eq, preserved, represents⟩
      · simp only [reference, represents.lookup_eq_none absent]
        exact ⟨s', result_eq, preserved, represents.assign assigned⟩
  | write key value =>
      obtain ⟨place, old, middle, returned, preserved, holds, effect⟩ :=
        index_spec invariant no_wrap.first
      obtain ⟨s', written, kept, assigned, -⟩ := writeValue_spec preserved holds value
      refine ⟨s', ?_, kept, ?_⟩
      · rw [step, Execution.result_bind_of_ok returned]
        simp only [written, pure_bind, Execution.result_pure, reference]
      · rcases effect with ⟨rfl, -⟩ | ⟨-, -, -, -, inserted⟩
        · exact represents.assign assigned
        · have both := (represents.assign inserted).assign assigned
          rwa [Finmap.insert_insert] at both
  | clear =>
      obtain ⟨preserved, entries_nil⟩ := clear_spec invariant
      exact ⟨clear T s, rfl, preserved, Represents.of_entries_nil entries_nil⟩
  | copy => exact ⟨s, by rw [step, copyConstruct_eq]; rfl, invariant, represents⟩
  | size => exact ⟨s, by rw [step, reference, represents.card_keys invariant]; rfl, invariant,
      represents⟩

/-- A run answers as the finite map does. -/
theorem run_refines (invariant : Invariant T s) (represents : Represents s m)
    (ops : List (Op κ υ)) (no_wrap : NoWrap (run T s ops)) :
    ∃ s', (run T s ops).result = .ok ((referenceRun T m ops).1, s') ∧ Invariant T s' ∧
      Represents s' (referenceRun T m ops).2 := by
  induction ops generalizing s m with
  | nil => exact ⟨s, rfl, invariant, represents⟩
  | cons op ops induction =>
      obtain ⟨first, next⟩ := no_wrap.run_cons
      obtain ⟨middle, stepped, kept, answered⟩ := step_refines invariant represents op first
      obtain ⟨s', ran, preserved, final⟩ := induction kept answered (next _ _ stepped)
      refine ⟨s', ?_, preserved, final⟩
      rw [run_cons, Execution.result_bind_of_ok stepped, Execution.result_bind_of_ok ran]
      rfl

/-- A session without overflow returns the reference's answers in a reachable state. -/
theorem session_reachable (T : Traits κ υ) {capacity : BitVec 32}
    (capacity_ge : 32 ≤ capacity.toNat) {ops : List (Op κ υ)}
    (no_wrap : NoWrap (session T capacity ops)) :
    ∃ s, (session T capacity ops).result = .ok ((referenceRun T ∅ ops).1, s) ∧
      Reachable T capacity s ∧ Invariant T s ∧ Represents s (referenceRun T ∅ ops).2 := by
  have nonzero := ne_zero_of_block capacity_ge
  rw [session_eq T nonzero] at no_wrap ⊢
  obtain ⟨invariant, entries_nil⟩ := freshTable_spec T capacity_ge
  obtain ⟨s, returned, preserved, represents⟩ :=
    run_refines invariant (Represents.of_entries_nil entries_nil) ops no_wrap
  have start : Reachable T capacity (freshTable T capacity) :=
    .construct (by rw [construct_eq T nonzero]; rfl)
  exact ⟨s, returned, start.run no_wrap returned, preserved, represents⟩

/-- Every map constructed with at least one block of slots, driven by any calls without overflow,
answers as a finite map that starts empty. -/
theorem session_refines (T : Traits κ υ) {capacity : BitVec 32}
    (capacity_ge : 32 ≤ capacity.toNat) (ops : List (Op κ υ))
    (no_wrap : NoWrap (session T capacity ops)) :
    ∃ s, (session T capacity ops).result = .ok ((referenceRun T ∅ ops).1, s) ∧
      Represents s (referenceRun T ∅ ops).2 := by
  obtain ⟨s, returned, -, -, represents⟩ := session_reachable T capacity_ge no_wrap
  exact ⟨s, returned, represents⟩

end Simulation

/-- Calls that force one growth and then use the other operations. -/
def exercise : List (Op (BitVec 64) (BitVec 64)) :=
  (List.range 33).map (fun nth => Op.insert (BitVec.ofNat 64 nth) 7#64) ++
    [.copy, .find 1#64, .erase 1#64, .find 1#64, .read 2#64, .write 65#64 8#64, .size]

theorem exercise_outcome :
    NoWrap (session tempHash 48#32 exercise) ∧
      (session tempHash 48#32 exercise).result.map
        (fun outcome => (outcome.2.count, outcome.2.capacity)) = .ok (33#32, 96#32) := by
  decide +kernel

theorem session_refines_exercise :
    ∃ s, (session tempHash 48#32 exercise).result = .ok ((referenceRun tempHash ∅ exercise).1, s) ∧
      Represents s (referenceRun tempHash ∅ exercise).2 :=
  session_refines tempHash (by decide) exercise exercise_outcome.1

theorem exercise_reached :
    ∃ s, Reachable tempHash 48#32 s ∧ Invariant tempHash s ∧ s.count = 33#32 ∧
      s.capacity = 96#32 ∧ Represents s (referenceRun tempHash ∅ exercise).2 := by
  obtain ⟨s, returned, reachable, invariant, represents⟩ :=
    session_reachable tempHash (by decide) exercise_outcome.1
  have geometry := exercise_outcome.2
  rw [returned] at geometry
  obtain ⟨count_eq, capacity_eq⟩ : s.count = 33#32 ∧ s.capacity = 96#32 := by
    simpa [Except.map] using geometry
  exact ⟨s, reachable, invariant, count_eq, capacity_eq, represents⟩

/-! ## Reachable states -/

section Reachable

variable [BEq κ] [LawfulBEq κ] {T : Traits κ υ} {s : Hashmap κ υ} {capacity : BitVec 32}

theorem step_returns (invariant : Invariant T s) {op : Op κ υ} (no_wrap : NoWrap (step T s op)) :
    ∃ answer s', (step T s op).result = .ok (answer, s') ∧ Invariant T s' := by
  classical
  obtain ⟨m, represents⟩ := Represents.exists_of_invariant invariant
  obtain ⟨s', returned, preserved, -⟩ := step_refines invariant represents op no_wrap
  exact ⟨_, s', returned, preserved⟩

theorem step_invariant (invariant : Invariant T s) {op : Op κ υ} (no_wrap : NoWrap (step T s op))
    {answer : Answer υ} {s' : Hashmap κ υ} (returned : (step T s op).result = .ok (answer, s')) :
    Invariant T s' := by
  obtain ⟨answer', after, result_eq, preserved⟩ := step_returns invariant no_wrap
  obtain ⟨-, rfl⟩ : answer' = answer ∧ after = s' := by
    simpa [result_eq] using returned
  exact preserved

/-- Reachable maps of at least one block satisfy the invariant. -/
theorem Reachable.invariant (reachable : Reachable T capacity s)
    (capacity_ge : 32 ≤ capacity.toNat) : Invariant T s := by
  induction reachable with
  | construct constructed =>
      obtain rfl : freshTable T capacity = _ := by
        simpa [construct_eq T (ne_zero_of_block capacity_ge)] using constructed
      exact (freshTable_spec T capacity_ge).1
  | step _ no_wrap returned induction => exact step_invariant induction no_wrap returned

end Reachable

end RobinHoodHashmap
