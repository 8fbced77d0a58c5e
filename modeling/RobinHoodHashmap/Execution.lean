import Mathlib.Logic.Basic
import Mathlib.Tactic.Common

/-!
# Logged executions

An execution appends events to a log and then either returns a value or stops with a fault.
The log survives a fault, so a condition on the events of a run is meaningful for every run.
`Related` compares two executions event by event and is the invariant rule of two-run arguments.
-/

universe u u' v w

/-- Outcome of running a stateful program: the events it emitted and how it ended. -/
structure Execution (ε : Type u) (φ : Type v) (α : Type w) where
  /-- Events in chronological order. -/
  log : List ε
  /-- The returned value, or the fault that stopped the program. -/
  result : Except φ α

namespace Execution

variable {ε : Type u} {φ : Type v} {α β γ : Type w}

/-- Run one program after another; nothing runs after a fault. -/
protected def bind (first : Execution ε φ α) (next : α → Execution ε φ β) : Execution ε φ β :=
  match first.result with
  | .ok value => ⟨first.log ++ (next value).log, (next value).result⟩
  | .error reason => ⟨first.log, .error reason⟩

instance : Monad (Execution ε φ) where
  pure value := ⟨[], .ok value⟩
  bind := Execution.bind

/-- Stop with a fault. -/
def fault (reason : φ) : Execution ε φ α := ⟨[], .error reason⟩

/-- Append one event to the log. -/
def emit (event : ε) : Execution ε φ PUnit := ⟨[event], .ok ⟨⟩⟩

/-- The same execution without its log, for a program that logs other events. -/
def silently {ε' : Type*} (execution : Execution ε φ α) : Execution ε' φ α := ⟨[], execution.result⟩

@[simp] theorem silently_pure {ε' : Type*} (value : α) :
    silently (pure value : Execution ε φ α) = (pure value : Execution ε' φ α) := rfl

@[simp] theorem log_pure (value : α) : (pure value : Execution ε φ α).log = [] := rfl

@[simp] theorem result_pure (value : α) :
    (pure value : Execution ε φ α).result = .ok value := rfl

@[simp] theorem log_fault (reason : φ) : (fault reason : Execution ε φ α).log = [] := rfl

@[simp] theorem result_fault (reason : φ) :
    (fault reason : Execution ε φ α).result = .error reason := rfl

theorem bind_eq (first : Execution ε φ α) (next : α → Execution ε φ β) :
    first >>= next = Execution.bind first next := rfl

@[simp] theorem fault_bind (reason : φ) (next : α → Execution ε φ β) :
    (fault reason : Execution ε φ α) >>= next = fault reason := rfl

private theorem map_id (execution : Execution ε φ α) : id <$> execution = execution := by
  obtain ⟨log, result⟩ := execution
  cases result <;> simp [Functor.map, Execution.bind]

private theorem bind_bind (first : Execution ε φ α) (second : α → Execution ε φ β)
    (third : β → Execution ε φ γ) :
    first >>= second >>= third = first >>= fun value => second value >>= third := by
  obtain ⟨log, result⟩ := first
  cases result with
  | error => rfl
  | ok value =>
      simp only [bind_eq, Execution.bind]
      cases (second value).result <;> simp

instance : LawfulMonad (Execution ε φ) :=
  LawfulMonad.mk' (Execution ε φ) map_id (fun _ _ => rfl) bind_bind

theorem silently_bind {ε' : Type*} (first : Execution ε φ α) (next : α → Execution ε φ β) :
    silently (first >>= next) =
      (silently first >>= fun value => silently (next value) : Execution ε' φ β) := by
  obtain ⟨log, result⟩ := first
  cases result <;> rfl

@[simp] theorem map_fault (f : α → β) (reason : φ) :
    f <$> (fault reason : Execution ε φ α) = fault reason := rfl

@[simp] theorem log_emit_bind (event : ε) (next : PUnit → Execution ε φ α) :
    (emit event >>= next).log = event :: (next ⟨⟩).log := rfl

@[simp] theorem result_emit_bind (event : ε) (next : PUnit → Execution ε φ α) :
    (emit event >>= next).result = (next ⟨⟩).result := rfl

@[simp] theorem log_map (f : α → β) (execution : Execution ε φ α) :
    (f <$> execution).log = execution.log := by
  obtain ⟨log, result⟩ := execution
  cases result <;> simp [Functor.map, Execution.bind]

theorem log_bind_of_ok {first : Execution ε φ α} {value : α} (returned : first.result = .ok value)
    (next : α → Execution ε φ β) :
    (first >>= next).log = first.log ++ (next value).log := by
  simp [bind_eq, Execution.bind, returned]

theorem result_bind_of_ok {first : Execution ε φ α} {value : α}
    (returned : first.result = .ok value) (next : α → Execution ε φ β) :
    (first >>= next).result = (next value).result := by
  simp [bind_eq, Execution.bind, returned]

/-- A sequence stops where its first part stops. -/
theorem result_bind_of_error {first : Execution ε φ α} {reason : φ}
    (stopped : first.result = .error reason) (next : α → Execution ε φ β) :
    (first >>= next).result = .error reason := by
  simp [bind_eq, Execution.bind, stopped]

theorem ok_bind (log : List ε) (value : α) (next : α → Execution ε φ β) :
    (⟨log, .ok value⟩ : Execution ε φ α) >>= next = ⟨log ++ (next value).log, (next value).result⟩ :=
  rfl

/-- A sequence that ends silently has the log of its first part. -/
theorem ok_bind_of_pure (log : List ε) {value : α} {next : α → Execution ε φ β} {last : β}
    (ends : next value = pure last) :
    (⟨log, .ok value⟩ : Execution ε φ α) >>= next = ⟨log, .ok last⟩ := by
  simp [bind_eq, Execution.bind, ends]

/-- Sequences that end alike step by step end alike, whatever they log. -/
theorem result_bind_congr {ε' : Type*} {first : Execution ε φ α} {first' : Execution ε' φ α}
    (same : first.result = first'.result) {next : α → Execution ε φ β} {next' : α → Execution ε' φ β}
    (rest : ∀ value, (next value).result = (next' value).result) :
    (first >>= next).result = (first' >>= next').result := by
  cases first_result : first'.result with
  | error reason => rw [result_bind_of_error (same.trans first_result), result_bind_of_error first_result]
  | ok value =>
      rw [result_bind_of_ok (same.trans first_result), result_bind_of_ok first_result, rest]

/-- Only what is run on the returned value matters. -/
theorem bind_congr_of_ok {first : Execution ε φ α} {value : α} (returned : first.result = .ok value)
    {next next' : α → Execution ε φ β} (same : next value = next' value) :
    first >>= next = first >>= next' := by
  simp [bind_eq, Execution.bind, returned, same]

/-- A returning sequence returns from both of its parts. -/
theorem result_bind_eq_ok {first : Execution ε φ α} {next : α → Execution ε φ β} {value : β}
    (returned : (first >>= next).result = .ok value) :
    ∃ middle, first.result = .ok middle ∧ (next middle).result = .ok value := by
  cases first_result : first.result with
  | error reason => simp [bind_eq, Execution.bind, first_result] at returned
  | ok middle =>
      rw [result_bind_of_ok first_result] at returned
      exact ⟨middle, rfl, returned⟩

/-- A returning step and rest of a run: what each of them returned. -/
theorem result_cons_eq_ok {σ : Type u} {answer : Type u} {first : Execution ε φ (answer × σ)}
    {rest : σ → Execution ε φ (List answer × σ)} {answers : List answer} {last : σ}
    (returned : (first >>= fun stepped => rest stepped.2 >>= fun later =>
      pure (stepped.1 :: later.1, later.2)).result = .ok (answers, last)) :
    ∃ head middle tail, first.result = .ok (head, middle) ∧
      (rest middle).result = .ok (tail, last) ∧ answers = head :: tail := by
  obtain ⟨⟨head, middle⟩, first_returned, continued⟩ := result_bind_eq_ok returned
  obtain ⟨⟨tail, after⟩, rest_returned, outcome_eq⟩ := result_bind_eq_ok continued
  obtain ⟨rfl, rfl⟩ : head :: tail = answers ∧ after = last := by
    simpa using outcome_eq
  exact ⟨head, middle, tail, first_returned, rest_returned, rfl⟩

theorem eq_pure {execution : Execution ε φ α} {value : α} (quiet : execution.log = [])
    (returned : execution.result = .ok value) : execution = pure value := by
  obtain ⟨log, result⟩ := execution
  obtain rfl : log = [] := quiet
  obtain rfl : result = .ok value := returned
  rfl

/-- A silent sequence starts silently. -/
theorem log_first_eq_nil {first : Execution ε φ α} {next : α → Execution ε φ β}
    (quiet : (first >>= next).log = []) : first.log = [] := by
  cases first_result : first.result with
  | error reason => simpa [bind_eq, Execution.bind, first_result] using quiet
  | ok value =>
      rw [log_bind_of_ok first_result] at quiet
      exact (List.append_eq_nil_iff.mp quiet).1

/-! ## Conditions on the events of an execution -/

/-- Every emitted event satisfies a condition. -/
def Always (condition : ε → Prop) (execution : Execution ε φ α) : Prop :=
  ∀ event ∈ execution.log, condition event

@[simp] theorem always_pure (condition : ε → Prop) (value : α) :
    Always condition (pure value : Execution ε φ α) := by
  simp [Always]

@[simp] theorem always_emit_bind (condition : ε → Prop) (event : ε)
    (next : PUnit → Execution ε φ α) :
    Always condition (emit event >>= next) ↔ condition event ∧ Always condition (next ⟨⟩) := by
  simp [Always]

theorem Always.first {condition : ε → Prop} {first : Execution ε φ α}
    {next : α → Execution ε φ β} (always : Always condition (first >>= next)) :
    Always condition first := by
  intro event member
  apply always event
  cases first_result : first.result with
  | error reason => simpa [bind_eq, Execution.bind, first_result] using member
  | ok value =>
      rw [log_bind_of_ok first_result]
      exact List.mem_append_left _ member

theorem Always.next {condition : ε → Prop} {first : Execution ε φ α}
    {next : α → Execution ε φ β} (always : Always condition (first >>= next)) {value : α}
    (returned : first.result = .ok value) : Always condition (next value) := by
  intro event member
  apply always event
  rw [log_bind_of_ok returned]
  exact List.mem_append_right _ member

theorem Always.bind {condition : ε → Prop} {first : Execution ε φ α} {next : α → Execution ε φ β}
    (always : Always condition first)
    (rest : ∀ value, first.result = .ok value → Always condition (next value)) :
    Always condition (first >>= next) := by
  intro event member
  cases first_result : first.result with
  | error reason =>
      apply always event
      simpa [bind_eq, Execution.bind, first_result] using member
  | ok value =>
      rw [log_bind_of_ok first_result, List.mem_append] at member
      exact member.elim (always event) (rest value first_result event)

/-! ## Values and the logs that led to them -/

/-- If the execution returns, then its log and its value satisfy a condition. -/
def Yields (post : List ε → α → Prop) (execution : Execution ε φ α) : Prop :=
  ∀ value, execution.result = .ok value → post execution.log value

section Yields

variable {post : List ε → α → Prop}

theorem Yields.pure {value : α} (holds : post [] value) :
    Yields post (Pure.pure value : Execution ε φ α) := by
  rintro _ ⟨⟩
  exact holds

theorem Yields.fault (reason : φ) : Yields post (Execution.fault reason : Execution ε φ α) :=
  fun _ returned => nomatch returned

theorem Yields.emit (event : ε) :
    Yields (fun log _ => log = [event]) (Execution.emit event : Execution ε φ PUnit) :=
  fun _ _ => rfl

theorem Yields.bind {post' : List ε → β → Prop} {first : Execution ε φ α}
    {next : α → Execution ε φ β} (yields : Yields post first)
    (rest : ∀ log value, post log value →
      Yields (fun later result => post' (log ++ later) result) (next value)) :
    Yields post' (first >>= next) := by
  intro result returned
  obtain ⟨value, first_returned, next_returned⟩ := result_bind_eq_ok returned
  rw [log_bind_of_ok first_returned]
  exact rest _ value (yields value first_returned) result next_returned

/-- Folding steps of a transitive relation. -/
theorem Yields.foldlM {ι : Type*} {relation : α → List ε → α → Prop}
    {body : α → ι → Execution ε φ α} (refl : ∀ value, relation value [] value)
    (trans : ∀ first log second later third, relation first log second →
      relation second later third → relation first (log ++ later) third)
    (step : ∀ value item, Yields (relation value) (body value item)) (items : List ι) (start : α) :
    Yields (relation start) (items.foldlM body start) := by
  induction items generalizing start with
  | nil => exact Yields.pure (refl start)
  | cons item items induction =>
      rw [List.foldlM_cons]
      refine Yields.bind (step start item) fun log middle stepped => ?_
      intro result returned
      exact trans start log middle _ result stepped (induction middle result returned)

end Yields

/-! ## Two related executions -/

/-- Equal logs, and either the same fault or related values. -/
def Related {α : Type w} {β : Type w} (relation : α → β → Prop) (left : Execution ε φ α)
    (right : Execution ε φ β) : Prop :=
  left.log = right.log ∧
    match left.result, right.result with
    | .ok leftValue, .ok rightValue => relation leftValue rightValue
    | .error leftReason, .error rightReason => leftReason = rightReason
    | _, _ => False

theorem Related.pure {relation : α → β → Prop} {left : α} {right : β}
    (related : relation left right) :
    Related relation (Pure.pure left : Execution ε φ α) (Pure.pure right) :=
  ⟨rfl, related⟩

theorem Related.fault (relation : α → β → Prop) (reason : φ) :
    Related relation (Execution.fault reason : Execution ε φ α) (Execution.fault reason) :=
  ⟨rfl, rfl⟩

/-- The right execution runs alike as long as the events of the left one satisfy a condition. -/
def Simulates {α : Type w} {β : Type w} (condition : ε → Prop) (relation : α → β → Prop)
    (left : Execution ε φ α) (right : Execution ε φ β) : Prop :=
  left.Always condition → Related relation left right

section Simulates

variable {condition : ε → Prop} {relation : α → β → Prop}

theorem Simulates.pure {left : α} {right : β} (related : relation left right) :
    Simulates condition relation (Pure.pure left : Execution ε φ α) (Pure.pure right) :=
  fun _ => Related.pure related

theorem Simulates.fault (reason : φ) :
    Simulates condition relation (Execution.fault reason : Execution ε φ α)
      (Execution.fault reason) :=
  fun _ => Related.fault relation reason

theorem Simulates.bind {α' β' : Type w} {relation' : α' → β' → Prop}
    {left : Execution ε φ α} {right : Execution ε φ β} {leftNext : α → Execution ε φ α'}
    {rightNext : β → Execution ε φ β'} (first : Simulates condition relation left right)
    (next : ∀ leftValue rightValue, relation leftValue rightValue →
      Simulates condition relation' (leftNext leftValue) (rightNext rightValue)) :
    Simulates condition relation' (left >>= leftNext) (right >>= rightNext) := by
  intro always
  obtain ⟨logs, results⟩ := first always.first
  cases left_result : left.result with
  | error reason =>
      cases right_result : right.result with
      | error reason' =>
          rw [left_result, right_result] at results
          simp only [bind_eq, Execution.bind, left_result, right_result]
          exact ⟨logs, results⟩
      | ok value => simp [left_result, right_result] at results
  | ok leftValue =>
      cases right_result : right.result with
      | error reason => simp [left_result, right_result] at results
      | ok rightValue =>
          rw [left_result, right_result] at results
          obtain ⟨nextLogs, nextResults⟩ := next _ _ results (always.next left_result)
          rw [Related, log_bind_of_ok left_result, log_bind_of_ok right_result,
            result_bind_of_ok left_result, result_bind_of_ok right_result, logs, nextLogs]
          exact ⟨rfl, nextResults⟩

/-- Both executions emit the same event, which then satisfies the condition. -/
theorem Simulates.emit {event : ε} {leftNext : PUnit → Execution ε φ α}
    {rightNext : PUnit → Execution ε φ β}
    (next : condition event → Simulates condition relation (leftNext ⟨⟩) (rightNext ⟨⟩)) :
    Simulates condition relation (Execution.emit event >>= leftNext)
      (Execution.emit event >>= rightNext) := by
  intro always
  obtain ⟨first, rest⟩ := (always_emit_bind condition event leftNext).mp always
  obtain ⟨logs, results⟩ := next first rest
  refine ⟨?_, results⟩
  rw [log_emit_bind, log_emit_bind, logs]

/-- Folding simulating bodies over one list from related states. -/
theorem Simulates.foldlM {ι : Type*} {leftBody : α → ι → Execution ε φ α}
    {rightBody : β → ι → Execution ε φ β}
    (body : ∀ leftValue rightValue item, relation leftValue rightValue →
      Simulates condition relation (leftBody leftValue item) (rightBody rightValue item))
    (items : List ι) {left : α} {right : β} (start : relation left right) :
    Simulates condition relation (items.foldlM leftBody left) (items.foldlM rightBody right) := by
  induction items generalizing left right with
  | nil => exact Simulates.pure start
  | cons item items induction =>
      simp only [List.foldlM_cons]
      exact Simulates.bind (body left right item start) fun _ _ related => induction related

end Simulates

/-! ## An execution and its implementation -/

/-- How the events of an implementation show as events of what it implements. -/
structure Observation (ε : Type u) (ε' : Type u') where
  /-- The event an event of the implementation shows as, if it shows. -/
  visible : ε' → Option ε
  /-- What is asked of visible events. -/
  condition : ε → Prop
  /-- What is asked of the events of the implementation. -/
  succeeds : ε' → Prop

/-- The log is what shows of the other log, and the results are the same fault or related. -/
def Follows {ε' : Type u'} {α β : Type w} (visible : ε' → Option ε) (relation : α → β → Prop)
    (left : Execution ε φ α) (right : Execution ε' φ β) : Prop :=
  left.log = right.log.filterMap visible ∧
    match left.result, right.result with
    | .ok leftValue, .ok rightValue => relation leftValue rightValue
    | .error leftReason, .error rightReason => leftReason = rightReason
    | _, _ => False

/-- The right execution implements the left one as long as its own events succeed.  Where nothing else
can fail it runs as long as the left one does. -/
structure Implements {ε' : Type u'} {α β : Type w} (seen : Observation ε ε') (reliable : Prop)
    (relation : α → β → Prop) (left : Execution ε φ α) (right : Execution ε' φ β) : Prop where
  /-- What succeeds follows the left execution. -/
  follows : right.Always seen.succeeds →
    Follows seen.visible relation left right ∧ left.Always seen.condition
  /-- Only visible events can fail. -/
  reaches : reliable → left.Always seen.condition → right.Always seen.succeeds

namespace Implements

variable {ε' : Type u'} {α β : Type w} {seen : Observation ε ε'} {reliable : Prop}
  {relation : α → β → Prop}

theorem pure {left : α} {right : β} (related : relation left right) :
    Implements seen reliable relation (Pure.pure left : Execution ε φ α) (Pure.pure right) :=
  ⟨fun _ => ⟨⟨rfl, related⟩, always_pure _ left⟩, fun _ _ => always_pure _ right⟩

theorem fault (reason : φ) :
    Implements seen reliable relation (Execution.fault reason : Execution ε φ α)
      (Execution.fault reason) :=
  ⟨fun _ => ⟨⟨rfl, rfl⟩, fun _ member => nomatch member⟩, fun _ _ _ member => nomatch member⟩

theorem bind {α' β' : Type w} {relation' : α' → β' → Prop} {left : Execution ε φ α}
    {right : Execution ε' φ β} {leftNext : α → Execution ε φ α'} {rightNext : β → Execution ε' φ β'}
    (first : Implements seen reliable relation left right)
    (next : ∀ leftValue rightValue, relation leftValue rightValue →
      Implements seen reliable relation' (leftNext leftValue) (rightNext rightValue)) :
    Implements seen reliable relation' (left >>= leftNext) (right >>= rightNext) := by
  constructor
  · intro always
    obtain ⟨⟨logs, results⟩, left_always⟩ := first.follows always.first
    cases left_result : left.result with
    | error reason =>
        cases right_result : right.result with
        | ok rightValue => simp [left_result, right_result] at results
        | error reason' =>
            rw [left_result, right_result] at results
            refine ⟨?_, left_always.bind fun value returned => nomatch left_result.symm.trans returned⟩
            simp only [bind_eq, Execution.bind, left_result, right_result]
            exact ⟨logs, results⟩
    | ok leftValue =>
        cases right_result : right.result with
        | error reason => simp [left_result, right_result] at results
        | ok rightValue =>
            rw [left_result, right_result] at results
            obtain ⟨⟨nextLogs, nextResults⟩, next_always⟩ :=
              (next _ _ results).follows (always.next right_result)
            constructor
            · rw [Follows, log_bind_of_ok left_result, log_bind_of_ok right_result,
                result_bind_of_ok left_result, result_bind_of_ok right_result, List.filterMap_append,
                ← logs, ← nextLogs]
              exact ⟨rfl, nextResults⟩
            · refine left_always.bind fun value returned => ?_
              obtain rfl := Except.ok.inj (left_result.symm.trans returned)
              exact next_always
  · intro trusted always
    have right_always := first.reaches trusted always.first
    obtain ⟨⟨-, results⟩, -⟩ := first.follows right_always
    refine right_always.bind fun rightValue right_result => ?_
    cases left_result : left.result with
    | error reason => simp [left_result, right_result] at results
    | ok leftValue =>
        rw [left_result, right_result] at results
        exact (next _ _ results).reaches trusted (always.next left_result)

/-- An event that shows succeeds exactly when what it shows as satisfies the condition. -/
theorem emit {event : ε} {event' : ε'} {leftNext : PUnit → Execution ε φ α}
    {rightNext : PUnit → Execution ε' φ β} (shown : seen.visible event' = some event)
    (agree : seen.succeeds event' ↔ seen.condition event)
    (next : seen.condition event →
      Implements seen reliable relation (leftNext ⟨⟩) (rightNext ⟨⟩)) :
    Implements seen reliable relation (Execution.emit event >>= leftNext)
      (Execution.emit event' >>= rightNext) := by
  constructor
  · intro always
    obtain ⟨succeeded, rest⟩ := (always_emit_bind _ event' rightNext).mp always
    have holds := agree.mp succeeded
    obtain ⟨⟨logs, results⟩, left_always⟩ := (next holds).follows rest
    refine ⟨⟨?_, results⟩, (always_emit_bind _ event leftNext).mpr ⟨holds, left_always⟩⟩
    rw [log_emit_bind, log_emit_bind, List.filterMap_cons_some shown, logs]
  · intro trusted always
    obtain ⟨holds, rest⟩ := (always_emit_bind _ event leftNext).mp always
    exact (always_emit_bind _ event' rightNext).mpr ⟨agree.mpr holds, (next holds).reaches trusted rest⟩

/-- An event that does not show. -/
theorem emit_hidden {event' : ε'} {left : Execution ε φ α} {rightNext : PUnit → Execution ε' φ β}
    (hidden : seen.visible event' = none) (trusted : reliable → seen.succeeds event')
    (next : seen.succeeds event' → Implements seen reliable relation left (rightNext ⟨⟩)) :
    Implements seen reliable relation left (Execution.emit event' >>= rightNext) := by
  constructor
  · intro always
    obtain ⟨succeeded, rest⟩ := (always_emit_bind _ event' rightNext).mp always
    obtain ⟨⟨logs, results⟩, left_always⟩ := (next succeeded).follows rest
    refine ⟨⟨?_, results⟩, left_always⟩
    rw [log_emit_bind, List.filterMap_cons_none hidden, logs]
  · intro holds always
    exact (always_emit_bind _ event' rightNext).mpr
      ⟨trusted holds, (next (trusted holds)).reaches holds always⟩

/-- Folding over one list bodies that run alike on its items. -/
theorem foldlM {ι : Type*} {leftBody : α → ι → Execution ε φ α}
    {rightBody : β → ι → Execution ε' φ β} (items : List ι)
    (body : ∀ item ∈ items, ∀ leftValue rightValue, relation leftValue rightValue →
      Implements seen reliable relation (leftBody leftValue item) (rightBody rightValue item))
    {left : α} {right : β} (start : relation left right) :
    Implements seen reliable relation (items.foldlM leftBody left) (items.foldlM rightBody right) := by
  induction items generalizing left right with
  | nil => exact Implements.pure start
  | cons item items induction =>
      simp only [List.foldlM_cons]
      exact (body item List.mem_cons_self left right start).bind fun _ _ related =>
        induction (fun later member => body later (List.mem_cons_of_mem _ member)) related

/-- What a succeeding implementation returns is related to what the left execution returns. -/
theorem result_right {left : Execution ε φ α} {right : Execution ε' φ β}
    (related : Implements seen reliable relation left right) (always : right.Always seen.succeeds)
    {leftValue : α} (returned : left.result = .ok leftValue) :
    ∃ rightValue, right.result = .ok rightValue ∧ relation leftValue rightValue := by
  obtain ⟨⟨-, results⟩, -⟩ := related.follows always
  rw [returned] at results
  cases right_result : right.result with
  | error reason => simp [right_result] at results
  | ok rightValue => exact ⟨rightValue, rfl, by simpa [right_result] using results⟩

end Implements

/-! ## Faults that do not occur -/

/-- The execution does not stop with `reason`, and what it returns satisfies `post`. -/
def Avoids (reason : φ) (post : α → Prop) (execution : Execution ε φ α) : Prop :=
  match execution.result with
  | .ok value => post value
  | .error other => other ≠ reason

section Avoids

variable {reason : φ} {post : α → Prop}

theorem Avoids.pure {value : α} (holds : post value) :
    Avoids reason post (Pure.pure value : Execution ε φ α) :=
  holds

theorem Avoids.fault {other : φ} (distinct : other ≠ reason) :
    Avoids reason post (Execution.fault other : Execution ε φ α) :=
  distinct

theorem Avoids.bind {post' : β → Prop} {first : Execution ε φ α} {next : α → Execution ε φ β}
    (avoids : Avoids reason post first) (rest : ∀ value, post value → Avoids reason post' (next value)) :
    Avoids reason post' (first >>= next) := by
  unfold Avoids at avoids ⊢
  cases first_result : first.result with
  | error other =>
      rw [first_result] at avoids
      simpa [bind_eq, Execution.bind, first_result] using avoids
  | ok value =>
      rw [first_result] at avoids
      rw [result_bind_of_ok first_result]
      exact rest value avoids

theorem Avoids.weaken {post' : α → Prop} {execution : Execution ε φ α}
    (avoids : Avoids reason post execution) (weaker : ∀ value, post value → post' value) :
    Avoids reason post' execution := by
  unfold Avoids at avoids ⊢
  cases result_eq : execution.result with
  | error other => simpa [result_eq] using avoids
  | ok value =>
      rw [result_eq] at avoids
      exact weaker value avoids

theorem Avoids.foldlM {ι : Type*} {body : α → ι → Execution ε φ α}
    (step : ∀ value item, post value → Avoids reason post (body value item)) (items : List ι)
    {start : α} (holds : post start) : Avoids reason post (items.foldlM body start) := by
  induction items generalizing start with
  | nil => exact Avoids.pure holds
  | cons item items induction =>
      rw [List.foldlM_cons]
      exact Avoids.bind (step start item holds) fun _ kept => induction kept

theorem Avoids.result_ne {execution : Execution ε φ α} (avoids : Avoids reason post execution) :
    execution.result ≠ .error reason := by
  intro stopped
  unfold Avoids at avoids
  rw [stopped] at avoids
  exact avoids rfl

end Avoids

end Execution
