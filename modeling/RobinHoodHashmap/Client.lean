import RobinHoodHashmap.Execution

/-!
# Clients

A client reaches a component through queries, and what it asks next may depend on every answer so far.
Answering from an abstract state instead of running the component is sound for every client as soon as it
is sound for one query.
-/

/-- A program that asks queries of type `ω`, gets answers of type `ρ` and returns a value or gives up. -/
inductive Client (ω ρ α : Type) where
  /-- Return a value. -/
  | ret (value : α)
  /-- Give up. -/
  | stop
  /-- Ask a query and go on with its answer. -/
  | ask (query : ω) (next : ρ → Client ω ρ α)

namespace Client

variable {ω ρ α β γ ε φ σ μ ι : Type}

/-- One client after another. -/
protected def bind (first : Client ω ρ α) (next : α → Client ω ρ β) : Client ω ρ β :=
  match first with
  | ret value => next value
  | stop => stop
  | ask query rest => ask query fun answer => (rest answer).bind next

instance : Monad (Client ω ρ) where
  pure := ret
  bind := Client.bind

/-- Ask one query. -/
def query (query : ω) : Client ω ρ ρ := ask query ret

/-- Go on only under a condition. -/
def guard (condition : Bool) : Client ω ρ PUnit := if condition then ret ⟨⟩ else stop

/-- Run a client on a component: what it returns, if it does not give up, and the state it leaves. -/
def run (call : σ → ω → Execution ε φ (ρ × σ)) : Client ω ρ α → σ → Execution ε φ (Option α × σ)
  | ret value, s => pure (some value, s)
  | stop, s => pure (none, s)
  | ask query next, s => do
      let (answer, s) ← call s query
      (next answer).run call s

/-- Answer a client from an abstract state. -/
def eval (meaning : μ → ω → ρ × μ) : Client ω ρ α → μ → Option α × μ
  | ret value, m => (some value, m)
  | stop, m => (none, m)
  | ask query next, m => (next (meaning m query).1).eval meaning (meaning m query).2

/-- The queries a client asks when it is answered from an abstract state. -/
def asked (meaning : μ → ω → ρ × μ) : Client ω ρ α → μ → List ω
  | ret _, _ => []
  | stop, _ => []
  | ask query next, m => query :: (next (meaning m query).1).asked meaning (meaning m query).2

/-- Every query a client may ask, whatever the answers, is an allowed one. -/
def Asks (allowed : ω → Prop) : Client ω ρ α → Prop
  | ret _ => True
  | stop => True
  | ask query next => allowed query ∧ ∀ answer, (next answer).Asks allowed

theorem Asks.bind {allowed : ω → Prop} {first : Client ω ρ α} {next : α → Client ω ρ β}
    (asks : first.Asks allowed) (later : ∀ value, (next value).Asks allowed) :
    (first >>= next).Asks allowed := by
  induction first with
  | ret value => exact later value
  | stop => trivial
  | ask query rest induction => exact ⟨asks.1, fun answer => induction answer (asks.2 answer)⟩

theorem Asks.asked {allowed : ω → Prop} {client : Client ω ρ α} (asks : client.Asks allowed)
    {meaning : μ → ω → ρ × μ} {m : μ} : ∀ query ∈ client.asked meaning m, allowed query := by
  induction client generalizing m with
  | ret value | stop =>
      intro query member
      exact (List.not_mem_nil member).elim
  | ask first next induction =>
      intro query member
      rcases List.mem_cons.mp member with rfl | later
      · exact asks.1
      · exact induction _ (asks.2 _) query later

/-- What follows a client runs from the state it leaves, unless it gave up. -/
theorem run_bind (call : σ → ω → Execution ε φ (ρ × σ)) (first : Client ω ρ α) (next : α → Client ω ρ β)
    (s : σ) : (first >>= next).run call s = first.run call s >>= fun ran =>
      ran.1.elim (pure (none, ran.2)) fun value => (next value).run call ran.2 := by
  induction first generalizing s with
  | ret value =>
      rw [run, pure_bind]
      rfl
  | stop =>
      rw [run, pure_bind]
      rfl
  | ask query rest induction =>
      calc
        _ = call s query >>= fun answered => (rest answered.1 >>= next).run call answered.2 := rfl
        _ = call s query >>= fun answered => (rest answered.1).run call answered.2 >>= fun ran =>
            ran.1.elim (pure (none, ran.2)) fun value => (next value).run call ran.2 := by
          simp only [induction]
        _ = (ask query rest).run call s >>= fun ran =>
            ran.1.elim (pure (none, ran.2)) fun value => (next value).run call ran.2 :=
          (bind_assoc (call s query) (fun answered => (rest answered.1).run call answered.2) _).symm

/-! ## Evaluation -/

section Eval

variable (meaning : μ → ω → ρ × μ) (m : μ)

@[simp] theorem eval_pure (value : α) : (pure value : Client ω ρ α).eval meaning m = (some value, m) := rfl

@[simp] theorem eval_stop : (stop : Client ω ρ α).eval meaning m = (none, m) := rfl

@[simp] theorem eval_query_bind (first : ω) (next : ρ → Client ω ρ α) :
    (query first >>= next).eval meaning m = (next (meaning m first).1).eval meaning (meaning m first).2 :=
  rfl

@[simp] theorem eval_guard_bind (condition : Bool) (next : PUnit → Client ω ρ α) :
    (guard condition >>= next).eval meaning m =
      if condition then (next ⟨⟩).eval meaning m else (none, m) := by
  cases condition <;> rfl

/-- What follows a client sees its value, unless it gave up. -/
theorem eval_bind (first : Client ω ρ α) (next : α → Client ω ρ β) :
    (first >>= next).eval meaning m =
      (first.eval meaning m).1.elim (none, (first.eval meaning m).2)
        fun value => (next value).eval meaning (first.eval meaning m).2 := by
  induction first generalizing m with
  | ret value => rfl
  | stop => rfl
  | ask query rest induction => exact induction _ _

variable {meaning m}

theorem eval_bind_of_some {first : Client ω ρ α} {value : α} {m' : μ}
    (returned : first.eval meaning m = (some value, m')) (next : α → Client ω ρ β) :
    (first >>= next).eval meaning m = (next value).eval meaning m' := by
  rw [eval_bind, returned]
  rfl

end Eval

/-! ## Refinement -/

/-- A component whose single answers agree with an abstract state agrees with it for every client. -/
theorem run_of_step (relation : σ → μ → Prop) {call : σ → ω → Execution ε φ (ρ × σ)}
    {meaning : μ → ω → ρ × μ} {condition : ε → Prop}
    (step : ∀ s m query, relation s m → (call s query).Always condition →
      ∃ s', (call s query).result = .ok ((meaning m query).1, s') ∧ relation s' (meaning m query).2)
    (client : Client ω ρ α) {s : σ} {m : μ} (related : relation s m)
    (always : (client.run call s).Always condition) :
    ∃ s', (client.run call s).result = .ok ((client.eval meaning m).1, s') ∧
      relation s' (client.eval meaning m).2 := by
  induction client generalizing s m with
  | ret value => exact ⟨s, rfl, related⟩
  | stop => exact ⟨s, rfl, related⟩
  | ask query next induction =>
      obtain ⟨middle, answered, related'⟩ := step s m query related always.first
      obtain ⟨s', returned, related''⟩ := induction _ related' (always.next answered)
      exact ⟨s', (Execution.result_bind_of_ok answered _).trans returned, related''⟩

end Client
