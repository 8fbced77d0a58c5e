import Mathlib.Data.List.Basic
import Mathlib.Data.Option.Basic

/-!
# Sharded machines

A machine whose state falls into shards, and whose calls each concern some of them, is a family of
independent machines: a run is decided shard by shard, from the calls that concern the shard and in their
order, so calls to different shards may be interleaved at will.
-/

namespace Sharding

variable {σ τ ω ρ ι : Type*}

/-- Run a machine that may refuse a call. -/
def runs (call : σ → ω → Option (ρ × σ)) (s : σ) : List ω → Option (List ρ × σ)
  | [] => some ([], s)
  | op :: ops => (call s op).bind fun called =>
      (runs call called.2 ops).map fun rest => (called.1 :: rest.1, rest.2)

/-- The answers to the calls that concern a shard. -/
def answersTo (concerned : ω → Bool) (ops : List ω) (answers : List ρ) : List ρ :=
  ((ops.zip answers).filter fun answered => concerned answered.1).map Prod.snd

/-- The machine `call` is the family of machines `shardCall`, as long as its states are valid. -/
structure Sharded (call : σ → ω → Option (ρ × σ)) (shardCall : τ → ω → Option (ρ × τ))
    (shard : σ → ι → Option τ) (concerns : ι → ω → Bool) (Valid : σ → Prop) : Prop where
  /-- A call is refused by a shard that it concerns. -/
  refused : ∀ {s op}, Valid s → call s op = none →
    ∃ i x, concerns i op = true ∧ shard s i = some x ∧ shardCall x op = none
  /-- A call leads to a valid state. -/
  valid : ∀ {s op answer s'}, Valid s → call s op = some (answer, s') → Valid s'
  /-- A shard that the call concerns has made the call itself. -/
  concerned : ∀ {s op answer s' i x}, Valid s → call s op = some (answer, s') → shard s i = some x →
    concerns i op = true → ∃ x', shardCall x op = some (answer, x') ∧ shard s' i = some x'
  /-- The other shards stay. -/
  unconcerned : ∀ {s op answer s' i}, Valid s → call s op = some (answer, s') →
    concerns i op = false → shard s' i = shard s i
  /-- No shard comes into being. -/
  missing : ∀ {s op answer s' i}, Valid s → call s op = some (answer, s') → shard s i = none →
    shard s' i = none

section Run

variable {call : σ → ω → Option (ρ × σ)} {s s' : σ} {op : ω} {ops : List ω} {answers : List ρ}

theorem runs_nil_eq_some (ran : runs call s [] = some (answers, s')) : [] = answers ∧ s = s' :=
  Prod.mk.inj (Option.some.inj ran)

theorem runs_cons_eq_some (ran : runs call s (op :: ops) = some (answers, s')) :
    ∃ answer middle later, call s op = some (answer, middle) ∧
      runs call middle ops = some (later, s') ∧ answers = answer :: later := by
  obtain ⟨⟨answer, middle⟩, called, rest⟩ := Option.bind_eq_some_iff.mp ran
  obtain ⟨⟨later, final⟩, ran_rest, same⟩ := Option.map_eq_some_iff.mp rest
  obtain ⟨rfl, rfl⟩ := Prod.mk.inj same
  exact ⟨answer, middle, later, called, ran_rest, rfl⟩

theorem runs_cons_of_some {answer : ρ} {middle : σ} {later : List ρ}
    (called : call s op = some (answer, middle)) (ran : runs call middle ops = some (later, s')) :
    runs call s (op :: ops) = some (answer :: later, s') := by
  rw [runs, called, Option.bind_some, ran, Option.map_some]

theorem answersTo_cons (concerned : ω → Bool) (op : ω) (ops : List ω) (answer : ρ) (answers : List ρ) :
    answersTo concerned (op :: ops) (answer :: answers) =
      if concerned op then answer :: answersTo concerned ops answers
      else answersTo concerned ops answers := by
  rw [answersTo, List.zip_cons_cons, List.filter_cons]
  split_ifs <;> rfl

end Run

namespace Sharded

variable {call : σ → ω → Option (ρ × σ)} {shardCall : τ → ω → Option (ρ × τ)}
  {shard : σ → ι → Option τ} {concerns : ι → ω → Bool} {Valid : σ → Prop}

/-- A run leads from a valid state to a valid state. -/
theorem valid_run (sharded : Sharded call shardCall shard concerns Valid) {s s' : σ} (valid : Valid s)
    {ops : List ω} {answers : List ρ} (ran : runs call s ops = some (answers, s')) : Valid s' := by
  induction ops generalizing s answers with
  | nil =>
      obtain ⟨rfl, rfl⟩ := runs_nil_eq_some ran
      exact valid
  | cons op ops induction =>
      obtain ⟨answer, middle, later, called, ran_rest, -⟩ := runs_cons_eq_some ran
      exact induction (sharded.valid valid called) ran_rest

/-- A run of the machine is a run of every shard on the calls that concern it.  The induction is on the
calls: the shard makes the first one with the machine, or is left as it was. -/
theorem run_shard (sharded : Sharded call shardCall shard concerns Valid) {s s' : σ} (valid : Valid s)
    {ops : List ω} {answers : List ρ} (ran : runs call s ops = some (answers, s')) {i : ι} {x : τ}
    (at_i : shard s i = some x) :
    ∃ x', runs shardCall x (ops.filter (concerns i)) = some (answersTo (concerns i) ops answers, x') ∧
      shard s' i = some x' := by
  induction ops generalizing s answers x with
  | nil =>
      obtain ⟨rfl, rfl⟩ := runs_nil_eq_some ran
      exact ⟨x, rfl, at_i⟩
  | cons op ops induction =>
      obtain ⟨answer, middle, later, called, ran_rest, rfl⟩ := runs_cons_eq_some ran
      have valid' := sharded.valid valid called
      rw [answersTo_cons, List.filter_cons]
      cases own : concerns i op with
      | true =>
          obtain ⟨x', shard_called, at_i'⟩ := sharded.concerned valid called at_i own
          obtain ⟨x'', shard_ran, final⟩ := induction valid' ran_rest at_i'
          exact ⟨x'', runs_cons_of_some shard_called shard_ran, final⟩
      | false => exact induction valid' ran_rest ((sharded.unconcerned valid called own).trans at_i)

theorem shard_eq_none (sharded : Sharded call shardCall shard concerns Valid) {s s' : σ} (valid : Valid s)
    {ops : List ω} {answers : List ρ} (ran : runs call s ops = some (answers, s')) {i : ι}
    (at_i : shard s i = none) : shard s' i = none := by
  induction ops generalizing s answers with
  | nil =>
      obtain ⟨rfl, rfl⟩ := runs_nil_eq_some ran
      exact at_i
  | cons op ops induction =>
      obtain ⟨answer, middle, later, called, ran_rest, rfl⟩ := runs_cons_eq_some ran
      exact induction (sharded.valid valid called) ran_rest (sharded.missing valid called at_i)

/-- The machine refuses a run exactly when some shard refuses its part of it. -/
theorem isSome_runs_iff (sharded : Sharded call shardCall shard concerns Valid) {s : σ} (valid : Valid s)
    (ops : List ω) : (runs call s ops).isSome ↔
      ∀ i x, shard s i = some x → (runs shardCall x (ops.filter (concerns i))).isSome := by
  constructor
  · intro accepted i x at_i
    obtain ⟨⟨answers, s'⟩, ran⟩ := Option.isSome_iff_exists.mp accepted
    obtain ⟨x', shard_ran, -⟩ := sharded.run_shard valid ran at_i
    rw [shard_ran, Option.isSome_some]
  · intro all
    induction ops generalizing s with
    | nil => rfl
    | cons op ops induction =>
        cases called : call s op with
        | none =>
            -- The shard that refuses the first call would not have accepted its part of the run.
            obtain ⟨i, x, own, at_i, refused⟩ := sharded.refused valid called
            have accepted := all i x at_i
            rw [List.filter_cons_of_pos own, runs, refused] at accepted
            exact (Bool.false_ne_true accepted).elim
        | some next =>
            obtain ⟨answer, middle⟩ := next
            -- Every shard of the next state accepts what is left of its part.
            have rest : (runs call middle ops).isSome := by
              refine induction (sharded.valid valid called) fun i x' at_i' => ?_
              cases own : concerns i op with
              | true =>
                  cases at_i : shard s i with
                  | none => simp [sharded.missing valid called at_i] at at_i'
                  | some x =>
                      obtain ⟨x'', shard_called, at_i''⟩ := sharded.concerned valid called at_i own
                      obtain rfl : x'' = x' := Option.some.inj (at_i''.symm.trans at_i')
                      have accepted := all i x at_i
                      rw [List.filter_cons_of_pos own, runs, shard_called, Option.bind_some,
                        Option.isSome_map] at accepted
                      exact accepted
              | false =>
                  have accepted := all i x' ((sharded.unconcerned valid called own).symm.trans at_i')
                  rwa [List.filter_cons_of_neg (by simp [own])] at accepted
            obtain ⟨⟨later, s'⟩, ran_rest⟩ := Option.isSome_iff_exists.mp rest
            rw [runs_cons_of_some called ran_rest, Option.isSome_some]

/-- Two interleavings of the same calls to every shard end alike, with the same answers in every shard. -/
theorem interleaved (sharded : Sharded call shardCall shard concerns Valid) {s s' : σ} (valid : Valid s)
    {ops ops' : List ω} (same : ∀ i, ops.filter (concerns i) = ops'.filter (concerns i))
    {answers : List ρ} (ran : runs call s ops = some (answers, s')) :
    ∃ answers' s'', runs call s ops' = some (answers', s'') ∧ (∀ i, shard s'' i = shard s' i) ∧
      ∀ i x, shard s i = some x →
        answersTo (concerns i) ops' answers' = answersTo (concerns i) ops answers := by
  have accepted : (runs call s ops').isSome := by
    rw [sharded.isSome_runs_iff valid]
    intro i x at_i
    rw [← same i]
    exact (sharded.isSome_runs_iff valid ops).mp (by rw [ran, Option.isSome_some]) i x at_i
  obtain ⟨⟨answers', s''⟩, ran'⟩ := Option.isSome_iff_exists.mp accepted
  have alike : ∀ i x, shard s i = some x → shard s'' i = shard s' i ∧
      answersTo (concerns i) ops' answers' = answersTo (concerns i) ops answers := by
    intro i x at_i
    obtain ⟨x', shard_ran, final⟩ := sharded.run_shard valid ran at_i
    obtain ⟨x'', shard_ran', final'⟩ := sharded.run_shard valid ran' at_i
    rw [← same i, shard_ran] at shard_ran'
    obtain ⟨answers_eq, rfl⟩ := Prod.mk.inj (Option.some.inj shard_ran')
    exact ⟨final'.trans final.symm, answers_eq.symm⟩
  refine ⟨answers', s'', ran', fun i => ?_, fun i x at_i => (alike i x at_i).2⟩
  cases at_i : shard s i with
  | some x => exact (alike i x at_i).1
  | none => rw [sharded.shard_eq_none valid ran at_i, sharded.shard_eq_none valid ran' at_i]

end Sharded

end Sharding
