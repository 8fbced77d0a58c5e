import RobinHoodHashmap.Agreement
import RobinHoodHashmap.Client
import RobinHoodHashmap.HighWater

/-!
# Clients of a map

A client of the map chooses each call by the answers to the calls before it.  Of a pointer it sees
whether it is null and the value it names, not the address, and it reads no member.  No client that
overflows no doubling tells the map from a finite map, and what no client can tell apart is exactly what
stores the same pairs.
-/

namespace RobinHoodHashmap

open Hashmap

variable {κ υ α β : Type}

/-- A client that holds one map. -/
abbrev MapClient (κ υ α : Type) := Client (Op κ υ) (Answer υ) α

/-- Construct a map and hand it to a client. -/
def clientSession [BEq κ] (T : Traits κ υ) (capacity : BitVec 32) (client : MapClient κ υ α) :
    Exec (Option α × Hashmap κ υ) := do
  let s ← construct T capacity
  client.run (step T) s

/-! ## Calls with typed answers -/

namespace MapClient

/-- The pointer a call has answered. -/
def pointerOf : Answer υ → MapClient κ υ (Option υ)
  | .pointer value => pure value
  | _ => Client.stop

/-- The value a call has answered. -/
def valueOf : Answer υ → MapClient κ υ υ
  | .value value => pure value
  | _ => Client.stop

/-- The number a call has answered. -/
def sizeOf : Answer υ → MapClient κ υ Nat
  | .size count => pure count
  | _ => Client.stop

/-- `insert(key, value)`. -/
def insert (key : κ) (value : υ) : MapClient κ υ PUnit := do
  let _ ← Client.query (.insert key value)

/-- `find(key)`, and the value the pointer names. -/
def find (key : κ) : MapClient κ υ (Option υ) := do
  let answer ← Client.query (.find key)
  pointerOf answer

/-- `erase(key)`. -/
def erase (key : κ) : MapClient κ υ υ := do
  let answer ← Client.query (.erase key)
  valueOf answer

/-- `operator[]`, read. -/
def read (key : κ) : MapClient κ υ υ := do
  let answer ← Client.query (.read key)
  valueOf answer

/-- `operator[]`, assigned. -/
def write (key : κ) (value : υ) : MapClient κ υ PUnit := do
  let _ ← Client.query (.write key value)

/-- `clear()`. -/
def clear : MapClient κ υ PUnit := do
  let _ ← Client.query .clear

/-- `size()`. -/
def size : MapClient κ υ Nat := do
  let answer ← Client.query .size
  sizeOf answer

section Eval

variable [DecidableEq κ] (T : Traits κ υ) (m : Finmap fun _ : κ => υ)

@[simp] theorem eval_insert_bind (key : κ) (value : υ) (next : PUnit → MapClient κ υ α) :
    (insert key value >>= next).eval (reference T) m =
      (next ⟨⟩).eval (reference T) (m.insert key value) := rfl

@[simp] theorem eval_find_bind (key : κ) (next : Option υ → MapClient κ υ α) :
    (find key >>= next).eval (reference T) m = (next (m.lookup key)).eval (reference T) m := rfl

theorem eval_erase_bind {key : κ} {value : υ} (stored : m.lookup key = some value)
    (next : υ → MapClient κ υ α) : (erase key >>= next).eval (reference T) m =
      (next value).eval (reference T) (m.erase key) := by
  have erased : reference T m (.erase key) = (.value value, m.erase key) := by
    simp [reference, stored]
  change Client.eval _ (Client.bind (valueOf _) next) _ = _
  rw [erased]
  rfl

theorem eval_erase_bind_of_missing {key : κ} (missing : m.lookup key = none)
    (next : υ → MapClient κ υ α) :
    (erase key >>= next).eval (reference T) m = (next T.minusOne).eval (reference T) m := by
  have answered : reference T m (.erase key) = (.value T.minusOne, m) := by
    simp [reference, missing]
  change Client.eval _ (Client.bind (valueOf _) next) _ = _
  rw [answered]
  rfl

theorem eval_read_bind {key : κ} {value : υ} (stored : m.lookup key = some value)
    (next : υ → MapClient κ υ α) :
    (read key >>= next).eval (reference T) m = (next value).eval (reference T) m := by
  have answered : reference T m (.read key) = (.value value, m) := by
    simp [reference, stored]
  change Client.eval _ (Client.bind (valueOf _) next) _ = _
  rw [answered]
  rfl

theorem eval_read_bind_of_missing {key : κ} (missing : m.lookup key = none)
    (next : υ → MapClient κ υ α) : (read key >>= next).eval (reference T) m =
      (next T.defaultValue).eval (reference T) (m.insert key T.defaultValue) := by
  have answered : reference T m (.read key) = (.value T.defaultValue, m.insert key T.defaultValue) := by
    simp [reference, missing]
  change Client.eval _ (Client.bind (valueOf _) next) _ = _
  rw [answered]
  rfl

@[simp] theorem eval_write_bind (key : κ) (value : υ) (next : PUnit → MapClient κ υ α) :
    (write key value >>= next).eval (reference T) m =
      (next ⟨⟩).eval (reference T) (m.insert key value) := rfl

@[simp] theorem eval_clear_bind (next : PUnit → MapClient κ υ α) :
    (clear >>= next).eval (reference T) m = (next ⟨⟩).eval (reference T) ∅ := rfl

@[simp] theorem eval_size_bind (next : Nat → MapClient κ υ α) :
    (size >>= next).eval (reference T) m = (next m.keys.card).eval (reference T) m := rfl

end Eval

end MapClient

section Refinement

variable [DecidableEq κ] [BEq κ] [LawfulBEq κ] {T : Traits κ υ} {s : Hashmap κ υ}
  {m : Finmap fun _ : κ => υ}

/-- A client finds a table answering as the finite map it represents. -/
theorem client_run (invariant : Invariant T s) (represents : Represents s m) (client : MapClient κ υ α)
    (no_wrap : NoWrap (client.run (step T) s)) :
    ∃ s', (client.run (step T) s).result = .ok ((client.eval (reference T) m).1, s') ∧
      Invariant T s' ∧ Represents s' (client.eval (reference T) m).2 :=
  Client.run_of_step (fun s m => Invariant T s ∧ Represents s m)
    (fun _ _ op related first => step_refines related.1 related.2 op first) client
    ⟨invariant, represents⟩ no_wrap

/-- A client overflows a doubling where the calls it makes of a finite map do. -/
theorem noWrap_client_iff (invariant : Invariant T s) (represents : Represents s m)
    (client : MapClient κ υ α) : NoWrap (client.run (step T) s) ↔
      NoWrap (run T s (client.asked (reference T) m)) := by
  induction client generalizing s m with
  | ret value => exact iff_of_true (Execution.always_pure _ _) (Execution.always_pure _ _)
  | stop => exact iff_of_true (Execution.always_pure _ _) (Execution.always_pure _ _)
  | ask op next induction =>
      have only : ∀ {s' answered}, (step T s op).result = .ok ((reference T m op).1, s') →
          (step T s op).result = .ok answered → ((reference T m op).1, s') = answered := by
        intro s' answered returned same
        simpa [returned] using same
      constructor
      · intro no_wrap
        have first : NoWrap (step T s op) := no_wrap.first
        obtain ⟨s', returned, invariant', represents'⟩ := step_refines invariant represents op first
        refine first.bind fun answered same => ?_
        obtain rfl := only returned same
        exact ((induction _ invariant' represents').mp (no_wrap.next returned)).bind
          fun _ _ => Execution.always_pure _ _
      · intro no_wrap
        obtain ⟨first, rest⟩ := no_wrap.run_cons
        obtain ⟨s', returned, invariant', represents'⟩ := step_refines invariant represents op first
        refine first.bind fun answered same => ?_
        obtain rfl := only returned same
        exact (induction _ invariant' represents').mpr (rest _ _ returned)

theorem log_client_run (invariant : Invariant T s) (represents : Represents s m)
    (client : MapClient κ υ α) (no_wrap : NoWrap (client.run (step T) s)) :
    (client.run (step T) s).log = (run T s (client.asked (reference T) m)).log := by
  induction client generalizing s m with
  | ret value => rfl
  | stop => rfl
  | ask op next induction =>
      obtain ⟨s', returned, invariant', represents'⟩ :=
        step_refines invariant represents op no_wrap.first
      have later := induction _ invariant' represents' (no_wrap.next returned)
      have run_next : (run T s' ((next (reference T m op).1).asked (reference T)
          (reference T m op).2) >>= fun rest =>
            (pure ((reference T m op).1 :: rest.1, rest.2) : Exec _)).log =
          ((next (reference T m op).1).run (step T) s').log := by
        rw [later]
        exact Execution.log_map _ _
      rw [Client.run, Client.asked, run_cons, Execution.log_bind_of_ok returned,
        Execution.log_bind_of_ok returned, run_next]

omit [DecidableEq κ] in
theorem noWrap_of_asks (invariant : Invariant T s) {client : MapClient κ υ α}
    (asks : client.Asks fun op => op.inserts = none) : NoWrap (client.run (step T) s) := by
  induction client generalizing s with
  | ret value => exact Execution.always_pure _ _
  | stop => exact Execution.always_pure _ _
  | ask op next induction =>
      have quiet : NoWrap (step T s op) := (noWrap_step_iff invariant op).mpr (by simp [asks.1])
      exact quiet.bind fun answered returned =>
        induction answered.1 (step_invariant invariant quiet returned) (asks.2 answered.1)

theorem noWrap_bind_of_asks (invariant : Invariant T s) {first : MapClient κ υ α}
    {next : α → MapClient κ υ β} (no_wrap : NoWrap (first.run (step T) s))
    (asks : ∀ value, (next value).Asks fun op => op.inserts = none) :
    NoWrap ((first >>= next).run (step T) s) := by
  rw [Client.run_bind]
  obtain ⟨m, represents⟩ := Represents.exists_of_invariant invariant
  obtain ⟨s', returned, invariant', -⟩ := client_run invariant represents first no_wrap
  refine no_wrap.bind fun ran ran_eq => ?_
  obtain rfl : ((first.eval (reference T) m).1, s') = ran := by
    simpa [returned] using ran_eq
  cases gave : (first.eval (reference T) m).1 with
  | none => exact Execution.always_pure _ _
  | some value => exact noWrap_of_asks invariant' (asks value)

omit [DecidableEq κ] [LawfulBEq κ] in
theorem clientSession_eq (T : Traits κ υ) {capacity : BitVec 32} (capacity_ge : 32 ≤ capacity.toNat)
    (client : MapClient κ υ α) :
    clientSession T capacity client = client.run (step T) (freshTable T capacity) := by
  rw [clientSession, construct_eq T (ne_zero_of_block capacity_ge), pure_bind]

theorem noWrap_clientSession_iff (T : Traits κ υ) {capacity : BitVec 32}
    (capacity_ge : 32 ≤ capacity.toNat) (client : MapClient κ υ α) :
    NoWrap (clientSession T capacity client) ↔ ∃ level, capacity.toNat * 2 ^ level < 2 ^ 32 ∧
      AllFitAfter T capacity (visited T ∅ (client.asked (reference T) ∅)) level := by
  obtain ⟨invariant, entries_nil⟩ := freshTable_spec T capacity_ge
  rw [clientSession_eq T capacity_ge,
    noWrap_client_iff invariant (Represents.of_entries_nil entries_nil) client]
  exact noWrap_run_iff T capacity_ge _

/-- No client that overflows no doubling tells a fresh map from an empty finite map.  It overflows none
exactly when some level fits every finite map the client goes through, and then the map has doubled to
the least one. -/
theorem client_refines (T : Traits κ υ) {capacity : BitVec 32} (capacity_ge : 32 ≤ capacity.toNat)
    (client : MapClient κ υ α) :
    (NoWrap (clientSession T capacity client) ↔ ∃ level, capacity.toNat * 2 ^ level < 2 ^ 32 ∧
      AllFitAfter T capacity (visited T ∅ (client.asked (reference T) ∅)) level) ∧
    (NoWrap (clientSession T capacity client) → ∃ s level, clientSession T capacity client =
        ⟨doublings capacity level, .ok ((client.eval (reference T) ∅).1, s)⟩ ∧
      IsLeast {level | AllFitAfter T capacity (visited T ∅ (client.asked (reference T) ∅)) level} level ∧
      Represents s (client.eval (reference T) ∅).2) := by
  refine ⟨noWrap_clientSession_iff T capacity_ge client, fun no_wrap => ?_⟩
  obtain ⟨invariant, entries_nil⟩ := freshTable_spec T capacity_ge
  have fresh : Represents (freshTable T capacity) ∅ := Represents.of_entries_nil entries_nil
  rw [clientSession_eq T capacity_ge] at no_wrap ⊢
  obtain ⟨s, returned, -, represents⟩ := client_run invariant fresh client no_wrap
  have log_eq := log_client_run invariant fresh client no_wrap
  obtain ⟨_, level, run_eq, -, least, -⟩ :=
    run_high_water T capacity_ge _ ((noWrap_client_iff invariant fresh client).mp no_wrap)
  rw [run_eq] at log_eq
  change _ = doublings capacity level at log_eq
  refine ⟨s, level, ?_, least, represents⟩
  rw [← log_eq, ← returned]

theorem noWrap_of_fits (T : Traits κ υ) {capacity : BitVec 32} (capacity_ge : 32 ≤ capacity.toNat)
    {keys : Finset κ} {client : MapClient κ υ α}
    (asks : client.Asks fun op => ∀ key, op.inserts = some key → key ∈ keys) {level : Nat}
    (bounded : capacity.toNat * 2 ^ level < 2 ^ 32) (fits : FitsAfter T capacity keys level) :
    NoWrap (clientSession T capacity client) := by
  refine (noWrap_clientSession_iff T capacity_ge client).mpr ⟨level, bounded, fun m member => ?_⟩
  exact Levels.Fits.subset (keys_visited_subset asks.asked (by simp) m member) fits

end Refinement

/-- Count the occurrences of words: each round reads a count and writes its successor. -/
def tally : List (BitVec 64) → MapClient (BitVec 64) (BitVec 64) PUnit
  | [] => pure ⟨⟩
  | word :: words => do
      let seen ← MapClient.read word
      MapClient.write word (seen + 1)
      tally words

theorem client_refines_tally :
    ∃ s, (clientSession tempHash 32#32 (tally [3#64, 5#64, 3#64])).result = .ok (some ⟨⟩, s) ∧
      ⟨3#64, 2#64⟩ ∈ s.entries := by
  obtain ⟨-, refines⟩ := client_refines tempHash (show 32 ≤ (32#32).toNat by decide)
    (tally [3#64, 5#64, 3#64])
  obtain ⟨s, level, session_eq, -, represents⟩ := refines (by decide +kernel)
  have counted : ((tally [3#64, 5#64, 3#64]).eval (reference tempHash) ∅).1 = some ⟨⟩ ∧
      ((tally [3#64, 5#64, 3#64]).eval (reference tempHash) ∅).2.lookup 3#64 = some 2#64 := by
    decide +kernel
  rw [counted.1] at session_eq
  exact ⟨s, congrArg Execution.result session_eq, (represents _ _).mp counted.2⟩

/-! ## Clients of the library copy -/

/-- Where hashes keep the header bits of their keys, every client runs alike on both copies. -/
theorem Library.client_run {hasher : BitVec 64 → BitVec 64} (agree : ∀ key, TagsAgree hasher key)
    {s : WordMap} (invariant : Invariant (wordTraits hasher) s)
    (client : MapClient (BitVec 64) (BitVec 64) α)
    (no_wrap : NoWrap (client.run (RobinHoodHashmap.step (wordTraits hasher)) s)) :
    client.run (step hasher) s = client.run (RobinHoodHashmap.step (wordTraits hasher)) s := by
  induction client generalizing s with
  | ret value => rw [Client.run, Client.run]
  | stop => rw [Client.run, Client.run]
  | ask op next induction =>
      have files : op.FilesByHash hasher s := (filesAlong_of_tagsAgree agree s [op]).1
      obtain ⟨answer, s', returned, preserved⟩ := step_returns invariant no_wrap.first
      have later : (next answer).run (step hasher) s' =
          (next answer).run (RobinHoodHashmap.step (wordTraits hasher)) s' :=
        induction answer preserved (no_wrap.next returned)
      rw [Client.run, Client.run, Library.step_eq invariant files no_wrap.first]
      exact Execution.bind_congr_of_ok returned later

/-! ## What clients can tell apart -/

section Observation

variable [BEq κ]

/-- No client that overflows no doubling on either of two tables tells them apart. -/
def Indistinguishable (T : Traits κ υ) (s s' : Hashmap κ υ) : Prop :=
  ∀ (α : Type) (client : MapClient κ υ α), NoWrap (client.run (step T) s) →
    NoWrap (client.run (step T) s') →
      (client.run (step T) s).result.map Prod.fst = (client.run (step T) s').result.map Prod.fst

variable [LawfulBEq κ] {T : Traits κ υ} {s s' : Hashmap κ υ} {capacity capacity' : BitVec 32}

/-- The client that looks up one key. -/
def lookUp (key : κ) : MapClient κ υ (Answer υ) := Client.query (.find key)

theorem noWrap_lookUp (invariant : Invariant T s) (key : κ) :
    NoWrap ((lookUp key).run (step T) s) := by
  classical
  have quiet := (noWrap_step_iff invariant (.find key)).mpr (by simp [Op.inserts])
  exact quiet.bind fun _ _ => Execution.always_pure _ _

/-- By the answers to calls reachable maps are told apart exactly by the pairs they store, whatever their
capacities, the order of their slots and what they have stored before. -/
theorem indistinguishable_iff (reachable : Reachable T capacity s)
    (capacity_ge : 32 ≤ s.capacity.toNat) (reachable' : Reachable T capacity' s')
    (capacity_ge' : 32 ≤ s'.capacity.toNat) :
    Indistinguishable T s s' ↔ s.entries.Perm s'.entries := by
  classical
  have invariant := reachable.invariant (reachable.start_ge capacity_ge)
  have invariant' := reachable'.invariant (reachable'.start_ge capacity_ge')
  obtain ⟨m, represents⟩ := Represents.exists_of_invariant invariant
  obtain ⟨m', represents'⟩ := Represents.exists_of_invariant invariant'
  have nodup := List.Nodup.of_map _ invariant.keys_nodup
  have nodup' := List.Nodup.of_map _ invariant'.keys_nodup
  rw [List.perm_ext_iff_of_nodup nodup nodup']
  constructor
  · rintro alike ⟨key, value⟩
    have answers := alike _ (lookUp key) (noWrap_lookUp invariant key) (noWrap_lookUp invariant' key)
    obtain ⟨_, returned, -⟩ :=
      client_run invariant represents (lookUp key) (noWrap_lookUp invariant key)
    obtain ⟨_, returned', -⟩ :=
      client_run invariant' represents' (lookUp key) (noWrap_lookUp invariant' key)
    rw [returned, returned'] at answers
    have lookups : m.lookup key = m'.lookup key := by
      simpa [lookUp, Client.query, Client.eval, reference, Except.map] using answers
    rw [← represents key value, ← represents' key value, lookups]
  · intro same α client no_wrap no_wrap'
    have shared : Represents s' m := fun key value => (represents key value).trans (same _)
    obtain ⟨_, returned, -⟩ := client_run invariant represents client no_wrap
    obtain ⟨_, returned', -⟩ := client_run invariant' shared client no_wrap'
    rw [returned, returned']
    rfl

end Observation

/-- A map that has stored a key and lost it again passes for a larger fresh one. -/
theorem indistinguishable_iff_erased :
    ∃ s, (session tempHash 32#32 [.insert 1#64 7#64, .erase 1#64]).result = .ok ([.done, .value 7#64], s) ∧
      Indistinguishable tempHash s (freshTable tempHash 64#32) := by
  have no_wrap : NoWrap (session tempHash 32#32 [.insert 1#64 7#64, .erase 1#64]) := by
    decide +kernel
  obtain ⟨s, returned, reachable, invariant, represents⟩ := session_reachable tempHash (by decide) no_wrap
  have emptied : (referenceRun tempHash ∅ [.insert 1#64 7#64, .erase 1#64]).2 = ∅ := by
    decide +kernel
  rw [emptied] at represents
  have fresh : Reachable tempHash 64#32 (freshTable tempHash 64#32) := .construct rfl
  obtain ⟨-, fresh_nil⟩ := freshTable_spec tempHash (show 32 ≤ (64#32).toNat by decide)
  have nil : s.entries = [] := by
    refine List.eq_nil_iff_forall_not_mem.mpr fun pair member => ?_
    have bound := (represents pair.key pair.value).mpr member
    simp at bound
  refine ⟨s, returned, (indistinguishable_iff reachable invariant.capacity_ge fresh (by decide)).mpr ?_⟩
  rw [nil, fresh_nil]

end RobinHoodHashmap
