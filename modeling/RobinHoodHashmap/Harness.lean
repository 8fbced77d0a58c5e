import RobinHoodHashmap.Clients

/-!
# The test harness

`Hashmap_Tests` runs the map under test beside a `std::unordered_map` and compares the two after every
call.  The harness is a client of the map under test; what it concludes about a finite map is what it
concludes about every map that answers as one.
-/

namespace RobinHoodHashmap

namespace Harness

variable {κ υ : Type} [DecidableEq κ]

/-- `ref_map`. -/
abbrev RefMap (κ υ : Type) := Finmap fun _ : κ => υ

/-- `ref_map[key]`: the value read and the map after a default may have been inserted. -/
def refIndex (T : Traits κ υ) (refMap : RefMap κ υ) (key : κ) : υ × RefMap κ υ :=
  (refMap.lookup key).elim (T.defaultValue, refMap.insert key T.defaultValue) fun value => (value, refMap)

section Tests

variable [DecidableEq υ] (T : Traits κ υ) (asKey : υ → κ)

/-- `test_count`. -/
def testCount (refMap : RefMap κ υ) : MapClient κ υ Bool := do
  let testSize ← MapClient.size
  pure (testSize = refMap.keys.card)

/-- `test_insert`. -/
def testInsert (key : κ) (value : υ) (refMap : RefMap κ υ) : MapClient κ υ (Bool × RefMap κ υ) := do
  Client.guard (key ∉ refMap)
  let refMap := refMap.insert key value
  MapClient.insert key value
  let testValue ← MapClient.read key
  let testSize ← MapClient.size
  pure (testValue = value && testSize = refMap.keys.card, refMap)

/-- `test_erase`.  The last check looks for the erased value, converted to a key. -/
def testErase (key : κ) (refMap : RefMap κ υ) : MapClient κ υ (Bool × RefMap κ υ) := do
  Client.guard (key ∈ refMap)
  let (refValue, refMap) := refIndex T refMap key
  let _ ← MapClient.find key
  let testValue ← MapClient.erase key
  let refMap := refMap.erase key
  Client.guard (testValue = refValue)
  let testSize ← MapClient.size
  Client.guard (testSize = refMap.keys.card)
  let testPvalue ← MapClient.find (asKey testValue)
  Client.guard (testPvalue = none)
  pure (true, refMap)

/-- `test_find`. -/
def testFind (key : κ) (refMap : RefMap κ υ) : MapClient κ υ (Bool × RefMap κ υ) := do
  let exist : Bool := key ∈ refMap
  let testPvalue ← MapClient.find key
  if exist != testPvalue.isSome then pure (false, refMap)
  else if exist then
    let (refValue, refMap) := refIndex T refMap key
    let testSize ← MapClient.size
    pure (testPvalue = some refValue && testSize = refMap.keys.card, refMap)
  else
    let testSize ← MapClient.size
    pure (testSize = refMap.keys.card, refMap)

/-- `test_index_operator`. -/
def testIndexOperator (key : κ) (value : υ) (refMap : RefMap κ υ) :
    MapClient κ υ (Bool × RefMap κ υ) := do
  let (refValue, refMap) := refIndex T refMap key
  let testValue ← MapClient.read key
  let testSize ← MapClient.size
  let same : Bool := testValue = refValue && testSize = refMap.keys.card
  let refMap := refMap.insert key value
  MapClient.write key value
  let testPvalue ← MapClient.find key
  let (refValue, refMap) := refIndex T refMap key
  pure (same && testPvalue = some refValue, refMap)

/-- `test_clear`. -/
def testClear : MapClient κ υ (Bool × RefMap κ υ) := do
  let refMap : RefMap κ υ := ∅
  MapClient.clear
  let testSize ← MapClient.size
  pure (testSize = refMap.keys.card, refMap)

/-! ## Verdicts on a finite map -/

variable {T asKey} {m : RefMap κ υ} {key : κ} {value : υ}

omit [DecidableEq υ] in
theorem refIndex_of_stored (stored : m.lookup key = some value) : refIndex T m key = (value, m) := by
  rw [refIndex, stored]
  rfl

omit [DecidableEq υ] in
theorem refIndex_of_missing (missing : m.lookup key = none) :
    refIndex T m key = (T.defaultValue, m.insert key T.defaultValue) := by
  rw [refIndex, missing]
  rfl

omit [DecidableEq υ] in
theorem testCount_eval : (testCount m).eval (reference T) m = (some true, m) := by
  simp [testCount]

theorem testInsert_eval (fresh : key ∉ m) : (testInsert key value m).eval (reference T) m =
    (some (true, m.insert key value), m.insert key value) := by
  have stored : (m.insert key value).lookup key = some value := Finmap.lookup_insert m
  simp [testInsert, fresh, MapClient.eval_read_bind T _ stored]

theorem testInsert_eval_of_mem (stored : key ∈ m) :
    (testInsert key value m).eval (reference T) m = (none, m) := by
  simp [testInsert, stored]

theorem testErase_eval (stored : m.lookup key = some value) :
    (testErase T asKey key m).eval (reference T) m =
      (if asKey value ∈ m.erase key then none else some (true, m.erase key), m.erase key) := by
  have member : key ∈ m := Finmap.mem_of_lookup_eq_some stored
  simp only [testErase, Client.eval_guard_bind, member, decide_true, if_true, refIndex_of_stored stored,
    MapClient.eval_find_bind, MapClient.eval_erase_bind T m stored, MapClient.eval_size_bind,
    Finmap.lookup_eq_none]
  by_cases found : asKey value ∈ m.erase key <;> simp [found]

theorem testErase_eval_of_missing (missing : m.lookup key = none) :
    (testErase T asKey key m).eval (reference T) m = (none, m) := by
  simp [testErase, Finmap.lookup_eq_none.mp missing]

theorem testFind_eval : (testFind T key m).eval (reference T) m = (some (true, m), m) := by
  cases looked_up : m.lookup key with
  | some value =>
      have member : key ∈ m := Finmap.mem_of_lookup_eq_some looked_up
      simp [testFind, looked_up, member, refIndex_of_stored looked_up]
  | none => simp [testFind, looked_up, Finmap.lookup_eq_none.mp looked_up]

theorem testIndexOperator_eval : (testIndexOperator T key value m).eval (reference T) m =
    (some (true, m.insert key value), m.insert key value) := by
  have stored : (m.insert key value).lookup key = some value := Finmap.lookup_insert m
  cases looked_up : m.lookup key with
  | some old =>
      simp [testIndexOperator, refIndex_of_stored looked_up, refIndex_of_stored stored,
        MapClient.eval_read_bind T m looked_up]
  | none =>
      simp [testIndexOperator, refIndex_of_missing looked_up, refIndex_of_stored stored,
        MapClient.eval_read_bind_of_missing T m looked_up]

omit [DecidableEq υ] in
theorem testClear_eval : (testClear : MapClient κ υ (Bool × RefMap κ υ)).eval (reference T) m =
    (some (true, ∅), ∅) := by
  simp [testClear]

end Tests

/-! ## Sequences of tests -/

/-- A test with its arguments. -/
inductive Check (κ υ : Type) where
  /-- `test_count`. -/
  | count
  /-- `test_insert`. -/
  | insert (key : κ) (value : υ)
  /-- `test_erase`. -/
  | erase (key : κ)
  /-- `test_find`. -/
  | find (key : κ)
  /-- `test_index_operator`. -/
  | index (key : κ) (value : υ)
  /-- `test_clear`. -/
  | clear

section Checks

variable [DecidableEq υ] (T : Traits κ υ) (asKey : υ → κ)

namespace Check

/-- Perform one test. -/
def perform (refMap : RefMap κ υ) : Check κ υ → MapClient κ υ (Bool × RefMap κ υ)
  | count => do
      let res ← testCount refMap
      pure (res, refMap)
  | insert key value => testInsert key value refMap
  | erase key => testErase T asKey key refMap
  | find key => testFind T key refMap
  | index key value => testIndexOperator T key value refMap
  | clear => testClear

/-- What the assertions of a test demand. -/
def Sound (m : RefMap κ υ) : Check κ υ → Prop
  | insert key _ => key ∉ m
  | erase key => ∃ value ∈ m.lookup key, asKey value ∉ m.erase key
  | _ => True

instance (m : RefMap κ υ) (check : Check κ υ) : Decidable (check.Sound asKey m) :=
  match check with
  | insert key _ => inferInstanceAs (Decidable (key ∉ m))
  | erase key => inferInstanceAs (Decidable (∃ value ∈ m.lookup key, asKey value ∉ m.erase key))
  | count | find _ | index _ _ | clear => inferInstanceAs (Decidable True)

/-- The reference map after a test. -/
def after (m : RefMap κ υ) : Check κ υ → RefMap κ υ
  | insert key value => m.insert key value
  | erase key => m.erase key
  | index key value => m.insert key value
  | clear => ∅
  | _ => m

end Check

/-- Perform tests in order. -/
def performAll (refMap : RefMap κ υ) : List (Check κ υ) → MapClient κ υ (List Bool × RefMap κ υ)
  | [] => pure ([], refMap)
  | check :: checks => do
      let (res, refMap) ← check.perform T asKey refMap
      let (verdicts, refMap) ← performAll refMap checks
      pure (res :: verdicts, refMap)

/-- Every test of a sequence gets what its assertions demand. -/
def SoundAlong (m : RefMap κ υ) : List (Check κ υ) → Prop
  | [] => True
  | check :: checks => check.Sound asKey m ∧ SoundAlong (check.after m) checks

instance decidableSoundAlong (m : RefMap κ υ) : (checks : List (Check κ υ)) →
    Decidable (SoundAlong asKey m checks)
  | [] => inferInstanceAs (Decidable True)
  | check :: checks =>
      have := decidableSoundAlong (check.after m) checks
      inferInstanceAs (Decidable (check.Sound asKey m ∧ SoundAlong asKey (check.after m) checks))

variable {T asKey} {m : RefMap κ υ}

theorem Check.perform_eval {check : Check κ υ} (sound : check.Sound asKey m) :
    (check.perform T asKey m).eval (reference T) m = (some (true, check.after m), check.after m) := by
  cases check with
  | count => rw [perform, Client.eval_bind_of_some testCount_eval]; rfl
  | insert key value => exact testInsert_eval sound
  | erase key =>
      obtain ⟨value, stored, fresh⟩ := sound
      rw [perform, testErase_eval stored, if_neg fresh]
      rfl
  | find key => exact testFind_eval
  | index key value => exact testIndexOperator_eval
  | clear => exact testClear_eval

theorem Check.perform_eval_of_unsound {check : Check κ υ} (unsound : ¬check.Sound asKey m) :
    ((check.perform T asKey m).eval (reference T) m).1 = none := by
  cases check with
  | insert key value =>
      rw [perform, testInsert_eval_of_mem (not_not.mp unsound)]
  | erase key =>
      cases looked_up : m.lookup key with
      | some value =>
          have found : asKey value ∈ m.erase key := by
            by_contra fresh
            exact unsound ⟨value, looked_up, fresh⟩
          rw [perform, testErase_eval looked_up, if_pos found]
      | none => rw [perform, testErase_eval_of_missing looked_up]
  | count | find _ | index _ _ | clear => exact (unsound trivial).elim

variable (T asKey) in
/-- On a finite map sound tests all pass, and the first unsound one stops the harness. -/
theorem performAll_eval (checks : List (Check κ υ)) :
    (SoundAlong asKey m checks → (performAll T asKey m checks).eval (reference T) m =
        (some (List.replicate checks.length true, checks.foldl Check.after m),
          checks.foldl Check.after m)) ∧
      (¬SoundAlong asKey m checks →
        ((performAll T asKey m checks).eval (reference T) m).1 = none) := by
  induction checks generalizing m with
  | nil => exact ⟨fun _ => rfl, fun unsound => (unsound trivial).elim⟩
  | cons check checks induction =>
      constructor
      · rintro ⟨sound, rest⟩
        rw [performAll, Client.eval_bind_of_some (Check.perform_eval sound),
          Client.eval_bind_of_some (induction.1 rest)]
        rfl
      · intro unsound
        by_cases sound : check.Sound asKey m
        · have stopped := induction.2 fun rest => unsound ⟨sound, rest⟩
          rw [performAll, Client.eval_bind_of_some (Check.perform_eval sound), Client.eval_bind, stopped]
          rfl
        · rw [performAll, Client.eval_bind, Check.perform_eval_of_unsound sound]
          rfl

end Checks

/-- The tests, built with assertions and run in any order on either copy of a map of at least 32 slots,
report success throughout when no insertion repeats a key, no erasure misses its key and no erased value
is a key that remains; otherwise an assertion stops them.  The library copy counts where hashes keep the
header bits of their keys. -/
theorem checks_verdict (hasher : BitVec 64 → BitVec 64) {capacity : BitVec 32}
    (capacity_ge : 32 ≤ capacity.toNat) (checks : List (Check (BitVec 64) (BitVec 64)))
    {call : WordMap → Op (BitVec 64) (BitVec 64) → Exec (Answer (BitVec 64) × WordMap)}
    (copy : call = step (wordTraits hasher) ∨
      call = Library.step hasher ∧ ∀ key, TagsAgree hasher key)
    (no_wrap : NoWrap ((performAll (wordTraits hasher) id ∅ checks).run (step (wordTraits hasher))
      (freshTable (wordTraits hasher) capacity))) :
    ∃ verdicts s, ((performAll (wordTraits hasher) id ∅ checks).run call
          (freshTable (wordTraits hasher) capacity)).result = .ok (verdicts, s) ∧
      (SoundAlong id ∅ checks →
        verdicts = some (List.replicate checks.length true, checks.foldl Check.after ∅) ∧
          Represents s (checks.foldl Check.after ∅)) ∧
      (¬SoundAlong id ∅ checks → verdicts = none) := by
  obtain ⟨invariant, entries_nil⟩ := freshTable_spec (wordTraits hasher) capacity_ge
  obtain ⟨s, returned, -, represents⟩ :=
    client_run invariant (Represents.of_entries_nil entries_nil) _ no_wrap
  have alike : (performAll (wordTraits hasher) id ∅ checks).run call
      (freshTable (wordTraits hasher) capacity) =
        (performAll (wordTraits hasher) id ∅ checks).run (step (wordTraits hasher))
          (freshTable (wordTraits hasher) capacity) := by
    rcases copy with rfl | ⟨rfl, agree⟩
    · rfl
    · exact Library.client_run agree invariant _ no_wrap
  obtain ⟨passes, stops⟩ := performAll_eval (wordTraits hasher) id (m := ∅) checks
  refine ⟨_, s, by rw [alike, returned], fun sound => ?_, stops⟩
  rw [passes sound] at represents ⊢
  exact ⟨rfl, represents⟩

/-- The tests `main` begins with. -/
def mainChecks : List (Check (BitVec 64) (BitVec 64)) :=
  [.count, .insert 10#64 20#64, .clear, .insert 10#64 20#64, .count, .find 10#64, .count, .find 20#64,
    .count, .erase 10#64, .count, .index 5#64 10#64, .count, .index 5#64 20#64, .count]

theorem checks_verdict_main :
    ∃ s, ((performAll tempHash id ∅ mainChecks).run (Library.step fun key => key)
        (freshTable tempHash 32#32)).result =
      .ok (some (List.replicate 15 true, Finmap.singleton 5#64 20#64), s) := by
  have agree : ∀ key, TagsAgree (fun key => key) key := fun _ => rfl
  obtain ⟨verdicts, s, returned, passes, -⟩ := checks_verdict (fun key => key)
    (show 32 ≤ (32#32).toNat by decide) mainChecks (Or.inr ⟨rfl, agree⟩) (by decide +kernel)
  have sound : SoundAlong id ∅ mainChecks := by
    decide +kernel
  obtain ⟨rfl, -⟩ := passes sound
  have final : mainChecks.foldl Check.after ∅ = Finmap.singleton 5#64 20#64 := by
    decide +kernel
  rw [final] at returned
  exact ⟨s, returned⟩

end Harness

end RobinHoodHashmap
