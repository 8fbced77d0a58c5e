import RobinHoodHashmap.CallDepth
import RobinHoodHashmap.Operations

/-!
# Runs

A client holds one map and calls its public operations in any order.  A run returns the answers of
its calls; it stops where a call leaves defined behaviour.
-/

namespace RobinHoodHashmap

open Hashmap

variable {κ υ : Type}

/-- Calls of a client. -/
inductive Op (κ υ : Type) where
  /-- `insert(key, value)`. -/
  | insert (key : κ) (value : υ)
  /-- `find(key)`, with a read of the value the pointer names. -/
  | find (key : κ)
  /-- `erase(key)`. -/
  | erase (key : κ)
  /-- `operator[]`, with a read through the reference. -/
  | read (key : κ)
  /-- `operator[]`, with an assignment through the reference. -/
  | write (key : κ) (value : υ)
  /-- `clear()`. -/
  | clear
  /-- Go on with a copy-constructed map. -/
  | copy
  /-- `size()`. -/
  | size

/-- What a call answers. -/
inductive Answer (υ : Type) where
  /-- The call returns nothing. -/
  | done
  /-- A pointer: null, or the value it names. -/
  | pointer (value : Option υ)
  /-- A value. -/
  | value (value : υ)
  /-- A number of entries. -/
  | size (count : Nat)
  deriving DecidableEq

section Step

variable [BEq κ] (T : Traits κ υ)

/-- One call. -/
def step (s : Hashmap κ υ) : Op κ υ → Exec (Answer υ × Hashmap κ υ)
  | .insert key value => do
      let s ← insert T s key value
      pure (.done, s)
  | .find key => do
      let res ← find T s key
      match res with
      | some place => do
          let value ← readValue T s place
          pure (.pointer (some value), s)
      | none => pure (.pointer none, s)
  | .erase key => do
      let (value, s) ← erase T s key
      pure (.value value, s)
  | .read key => do
      let (place, s) ← index T s key
      let value ← readValue T s place
      pure (.value value, s)
  | .write key value => do
      let (place, s) ← index T s key
      let s ← writeValue T s place value
      pure (.done, s)
  | .clear => pure (.done, clear T s)
  | .copy => pure (.done, copyConstruct T s)
  | .size => pure (.size (size s).toNat, s)

/-- A sequence of calls. -/
def run (s : Hashmap κ υ) : List (Op κ υ) → Exec (List (Answer υ) × Hashmap κ υ)
  | [] => pure ([], s)
  | op :: ops => do
      let (answer, s) ← step T s op
      let (answers, s) ← run s ops
      pure (answer :: answers, s)

/-- Construct a map and run calls on it. -/
def session (capacity : BitVec 32) (ops : List (Op κ υ)) :
    Exec (List (Answer υ) × Hashmap κ υ) := do
  let s ← construct T capacity
  run T s ops

/-- States reached from the constructor by calls that return and overflow no doubling. -/
inductive Reachable (capacity : BitVec 32) : Hashmap κ υ → Prop
  | construct {s : Hashmap κ υ} : (construct T capacity).result = .ok s → Reachable capacity s
  | step {s s' : Hashmap κ υ} {op : Op κ υ} {answer : Answer υ} : Reachable capacity s →
      NoWrap (step T s op) → (step T s op).result = .ok (answer, s') → Reachable capacity s'

end Step

variable [BEq κ] {T : Traits κ υ} {s : Hashmap κ υ}

theorem session_eq (T : Traits κ υ) {capacity : BitVec 32} (nonzero : capacity ≠ 0#32)
    (ops : List (Op κ υ)) : session T capacity ops = run T (freshTable T capacity) ops := by
  rw [session, construct_eq T nonzero, pure_bind]

theorem run_cons (op : Op κ υ) (ops : List (Op κ υ)) :
    run T s (op :: ops) = step T s op >>= fun stepped =>
      run T stepped.2 ops >>= fun rest => pure (stepped.1 :: rest.1, rest.2) := rfl

theorem run_cons_eq_ok {op : Op κ υ} {ops : List (Op κ υ)} {answers : List (Answer υ)}
    {s' : Hashmap κ υ} (ran : (run T s (op :: ops)).result = .ok (answers, s')) :
    ∃ answer middle later, (step T s op).result = .ok (answer, middle) ∧
      (run T middle ops).result = .ok (later, s') ∧ answers = answer :: later :=
  Execution.result_cons_eq_ok ran

theorem NoWrap.run_cons {op : Op κ υ} {ops : List (Op κ υ)} (no_wrap : NoWrap (run T s (op :: ops))) :
    NoWrap (step T s op) ∧ ∀ answer s', (step T s op).result = .ok (answer, s') →
      NoWrap (run T s' ops) :=
  ⟨no_wrap.first, fun _ _ returned => (no_wrap.next returned).first⟩

/-- The states inside a run from a reachable state are reachable. -/
theorem Reachable.run {capacity : BitVec 32} (reachable : Reachable T capacity s)
    {ops : List (Op κ υ)} (no_wrap : NoWrap (run T s ops)) {answers : List (Answer υ)}
    {s' : Hashmap κ υ} (returned : (run T s ops).result = .ok (answers, s')) :
    Reachable T capacity s' := by
  induction ops generalizing s answers with
  | nil =>
      obtain ⟨-, rfl⟩ : [] = answers ∧ s = s' := by
        simpa [RobinHoodHashmap.run] using returned
      exact reachable
  | cons op ops induction =>
      obtain ⟨answer, middle, later, stepped, ran, -⟩ := run_cons_eq_ok returned
      obtain ⟨first, next⟩ := no_wrap.run_cons
      exact induction (reachable.step first stepped) (next answer middle stepped) ran

/-! ## Bounds of the model -/

omit [BEq κ] in
theorem headerBlock_avoids (T : Traits κ υ) (s : Hashmap κ υ) (nth : Nat) :
    (headerBlock T s nth).Avoids .outOfFuel fun _ => True := by
  unfold headerBlock
  split
  · exact Execution.Avoids.pure trivial
  · exact Execution.Avoids.fault (by decide)

theorem find_avoids (T : Traits κ υ) (s : Hashmap κ υ) (key : κ) :
    (find T s key).Avoids .outOfFuel fun _ => True := by
  refine (headerBlock_avoids T s _).bind fun block _ => ?_
  rw [searchBlock_eq, pure_bind]
  exact Execution.Avoids.pure trivial

theorem insert_avoids (T : Traits κ υ) (s : Hashmap κ υ) (key : κ) (value : υ) :
    (insert T s key value).Avoids .outOfFuel fun _ => True :=
  (callDepth_suffices T s key value).1.weaken fun _ _ => trivial

theorem erase_avoids (T : Traits κ υ) (s : Hashmap κ υ) (key : κ) :
    (erase T s key).Avoids .outOfFuel fun _ => True := by
  refine (headerBlock_avoids T s _).bind fun block _ => ?_
  rw [searchBlock_eq, pure_bind]
  split <;> exact Execution.Avoids.pure trivial

theorem findAgain_avoids (T : Traits κ υ) (s : Hashmap κ υ) (key : κ) :
    (findAgain T s key).Avoids .outOfFuel fun _ => True := by
  refine (find_avoids T s key).bind fun res _ => ?_
  cases res with
  | some place => exact Execution.Avoids.pure trivial
  | none => exact Execution.Avoids.fault (by decide)

theorem index_avoids (T : Traits κ υ) (s : Hashmap κ υ) (key : κ) :
    (index T s key).Avoids .outOfFuel fun _ => True := by
  refine (find_avoids T s key).bind fun res _ => ?_
  cases res with
  | some place =>
      have kept : (pure s : Exec (Hashmap κ υ)).Avoids .outOfFuel fun _ => True := trivial
      exact kept.bind fun table _ => findAgain_avoids T table key
  | none =>
      exact (insert_avoids T s key T.defaultValue).bind fun table _ => findAgain_avoids T table key

/-- No call exceeds a bound of the model, from whatever table. -/
theorem step_avoids (T : Traits κ υ) (s : Hashmap κ υ) (op : Op κ υ) :
    (step T s op).Avoids .outOfFuel fun _ => True := by
  have finish : ∀ {α β : Type} {execution : Exec α} {f : α → β},
      execution.Avoids .outOfFuel (fun _ => True) →
        (execution >>= fun value => pure (f value)).Avoids .outOfFuel fun _ => True :=
    fun avoids => avoids.bind fun _ _ => Execution.Avoids.pure trivial
  cases op with
  | insert key value => exact finish (insert_avoids T s key value)
  | find key =>
      refine (find_avoids T s key).bind fun res _ => ?_
      cases res with
      | some place => exact finish (finish (headerBlock_avoids T s place.block))
      | none => exact Execution.Avoids.pure trivial
  | erase key => exact finish (erase_avoids T s key)
  | read key =>
      refine (index_avoids T s key).bind fun found _ => ?_
      exact finish (finish (headerBlock_avoids T found.2 found.1.block))
  | write key value =>
      refine (index_avoids T s key).bind fun found _ => ?_
      exact finish (finish (headerBlock_avoids T found.2 found.1.block))
  | clear => exact Execution.Avoids.pure trivial
  | copy => exact Execution.Avoids.pure trivial
  | size => exact Execution.Avoids.pure trivial

/-- No run exceeds a bound of the model. -/
theorem run_avoids (T : Traits κ υ) (s : Hashmap κ υ) (ops : List (Op κ υ)) :
    (run T s ops).Avoids .outOfFuel fun _ => True := by
  induction ops generalizing s with
  | nil => exact Execution.Avoids.pure trivial
  | cons op ops induction =>
      rw [run_cons]
      refine (step_avoids T s op).bind fun stepped _ => ?_
      exact (induction stepped.2).bind fun _ _ => Execution.Avoids.pure trivial

end RobinHoodHashmap
