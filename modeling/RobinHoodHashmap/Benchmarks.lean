import Mathlib.Data.BitVec
import RobinHoodHashmap.Clients
import RobinHoodHashmap.Sfc64

/-!
# The benchmarks

A benchmark fills a map with drawn words and asks it for words drawn again.  The same code runs on a
`std::unordered_map`, which answers as a finite map does; what a benchmark reports can be told from the
words alone.
-/

namespace RobinHoodHashmap

open Hashmap

/-- `big_struct`. -/
@[ext] structure BigStruct where
  /-- `_v0`. -/
  v0 : BitVec 64
  /-- `_v1`. -/
  v1 : BitVec 64
  /-- `_v2`. -/
  v2 : BitVec 64
  /-- `_v3`. -/
  v3 : BitVec 64
  deriving DecidableEq

namespace BigStruct

/-- `big_struct(uint64_t)`. -/
def ofWord (v : BitVec 64) : BigStruct := ⟨v, v, v, v⟩

/-- `operator uint64_t`. -/
def toWord (big : BigStruct) : BitVec 64 := big.v0

@[simp] theorem toWord_ofWord (v : BitVec 64) : (ofWord v).toWord = v := rfl

end BigStruct

/-- `my_map_type`: words under `temp_hash`, with values of four words. -/
def bigTraits : Traits (BitVec 64) BigStruct where
  hasher key := key
  pairSize := 40
  zeroPair := ⟨0#64, .ofWord 0#64⟩
  defaultValue := .ofWord 0#64
  minusOne := .ofWord (-1#64)

namespace Sfc64

/-- The first words a generator draws. -/
def drawn (g : Sfc64) : Nat → List (BitVec 64)
  | 0 => []
  | n + 1 => g.draw.1 :: g.next.drawn n

@[simp] theorem length_drawn (g : Sfc64) (n : Nat) : (g.drawn n).length = n := by
  induction n generalizing g with
  | zero => rfl
  | succ n induction => rw [drawn, List.length_cons, induction]

theorem drawn_prefix (g : Sfc64) {n n' : Nat} (le : n ≤ n') : g.drawn n <+: g.drawn n' := by
  induction n generalizing g n' with
  | zero => exact List.nil_prefix
  | succ n induction =>
      cases n' with
      | zero => exact (Nat.not_succ_le_zero n le).elim
      | succ n' => exact (List.prefix_cons_inj _).mpr (induction g.next (Nat.le_of_succ_le_succ le))

end Sfc64

namespace Benchmark

variable {υ : Type}

/-! ## Insertion, removal and clearing -/

/-- The loop of `run_benchmark_insert_100M`. -/
def insertLoop : Nat → Sfc64 → MapClient (BitVec 64) υ PUnit
  | 0, _ => pure ⟨⟩
  | n + 1, rng => do
      let (key, rng) := rng.draw
      let _ ← MapClient.read key
      insertLoop n rng

/-- The loop of `run_benchmark_remove_100M`. -/
def removeLoop : Nat → Sfc64 → MapClient (BitVec 64) υ PUnit
  | 0, _ => pure ⟨⟩
  | n + 1, rng => do
      let (key, rng) := rng.draw
      let _ ← MapClient.erase key
      removeLoop n rng

/-- `run_benchmark_insert_100M`: the number it compares with `100'000'000`. -/
def insert100M (seed : BitVec 64) (insertNum : Nat) : MapClient (BitVec 64) υ Nat := do
  insertLoop insertNum (.seeded seed)
  MapClient.size

/-- `run_benchmark_remove_100M`: the number it compares with zero. -/
def remove100M (seed : BitVec 64) (insertNum : Nat) : MapClient (BitVec 64) υ Nat := do
  removeLoop insertNum (.seeded seed)
  MapClient.size

/-- `run_benchmark_clear_100M`: the number it compares with zero. -/
def clear100M : MapClient (BitVec 64) υ Nat := do
  MapClient.clear
  MapClient.size

/-- The three benchmarks as `main` runs them: the removal runs on a copy. -/
def run100M (T : Traits (BitVec 64) υ) (capacity : BitVec 32) (seed : BitVec 64) (insertNum : Nat) :
    Exec (Option Nat × Option Nat × Option Nat) := do
  let map ← construct T capacity
  let (inserted, map) ← (insert100M seed insertNum).run (step T) map
  let copied := copyConstruct T map
  let (removed, _) ← (remove100M seed insertNum).run (step T) copied
  let (cleared, _) ← clear100M.run (step T) map
  pure (inserted, removed, cleared)

section Evaluation

variable (T : Traits (BitVec 64) υ) (m : Finmap fun _ : BitVec 64 => υ)

/-- Inserting drawn words leaves exactly these and what was stored. -/
theorem insertLoop_eval (n : Nat) (rng : Sfc64) :
    ∃ m', (insertLoop n rng).eval (reference T) m = (some ⟨⟩, m') ∧
      m'.keys = m.keys ∪ (rng.drawn n).toFinset := by
  induction n generalizing rng m with
  | zero => exact ⟨m, rfl, by simp [Sfc64.drawn]⟩
  | succ n induction =>
      cases found : m.lookup rng.draw.1 with
      | some value =>
          obtain ⟨m', evaluated, keys_eq⟩ := induction m rng.next
          refine ⟨m', (MapClient.eval_read_bind T m found _).trans evaluated, ?_⟩
          have stored : rng.draw.1 ∈ m.keys := Finmap.mem_keys.mpr (Finmap.mem_of_lookup_eq_some found)
          rw [keys_eq, Sfc64.drawn, List.toFinset_cons, Finset.union_insert,
            Finset.insert_eq_of_mem (Finset.mem_union_left _ stored)]
      | none =>
          obtain ⟨m', evaluated, keys_eq⟩ := induction (m.insert rng.draw.1 T.defaultValue) rng.next
          refine ⟨m', (MapClient.eval_read_bind_of_missing T m found _).trans evaluated, ?_⟩
          rw [keys_eq, Sfc64.drawn, List.toFinset_cons]
          ext key
          simp [Finmap.mem_keys, Finmap.mem_insert, or_assoc]

theorem removeLoop_eval (n : Nat) (rng : Sfc64) :
    ∃ m', (removeLoop n rng).eval (reference T) m = (some ⟨⟩, m') ∧
      m'.keys = m.keys \ (rng.drawn n).toFinset := by
  induction n generalizing rng m with
  | zero => exact ⟨m, rfl, by simp [Sfc64.drawn]⟩
  | succ n induction =>
      cases found : m.lookup rng.draw.1 with
      | some value =>
          obtain ⟨m', evaluated, keys_eq⟩ := induction (m.erase rng.draw.1) rng.next
          refine ⟨m', (MapClient.eval_erase_bind T m found _).trans evaluated, ?_⟩
          rw [keys_eq, Sfc64.drawn, List.toFinset_cons]
          ext key
          simp [Finmap.mem_keys, and_assoc, and_left_comm]
      | none =>
          obtain ⟨m', evaluated, keys_eq⟩ := induction m rng.next
          refine ⟨m', (MapClient.eval_erase_bind_of_missing T m found _).trans evaluated, ?_⟩
          have missing : rng.draw.1 ∉ m.keys := fun member =>
            Finmap.lookup_eq_none.mp found (Finmap.mem_keys.mp member)
          rw [keys_eq, Sfc64.drawn, List.toFinset_cons, Finset.sdiff_insert_of_notMem missing]

theorem removeLoop_asks (n : Nat) (rng : Sfc64) :
    (removeLoop n rng : MapClient (BitVec 64) υ PUnit).Asks fun op => op.inserts = none := by
  induction n generalizing rng with
  | zero => trivial
  | succ n induction =>
      refine ⟨rfl, fun answer => ?_⟩
      cases answer with
      | value value => exact induction rng.next
      | done | pointer _ | size _ => trivial

end Evaluation

/-- The benchmark of insertions reports how many different words it has drawn, never more than it draws;
removal reports zero on the copy, and clearing on the original. -/
theorem run100M_reports (T : Traits (BitVec 64) υ) {capacity : BitVec 32}
    (capacity_ge : 32 ≤ capacity.toNat) (seed : BitVec 64) (insertNum : Nat)
    (no_wrap : NoWrap (clientSession T capacity (insert100M seed insertNum))) :
    (run100M T capacity seed insertNum).result =
        .ok (some ((Sfc64.seeded seed).drawn insertNum).toFinset.card, some 0, some 0) ∧
      ((Sfc64.seeded seed).drawn insertNum).toFinset.card ≤ insertNum := by
  obtain ⟨invariant, entries_nil⟩ := freshTable_spec T capacity_ge
  rw [clientSession, construct_eq T (ne_zero_of_block capacity_ge), pure_bind] at no_wrap
  obtain ⟨m, evaluated, keys_eq⟩ := insertLoop_eval T ∅ insertNum (.seeded seed)
  have inserts : (insert100M seed insertNum).eval (reference T) ∅ = (some m.keys.card, m) := by
    rw [insert100M, Client.eval_bind_of_some evaluated]
    rfl
  obtain ⟨s, inserted, invariant, represents⟩ :=
    client_run invariant (Represents.of_entries_nil entries_nil) _ no_wrap
  rw [inserts] at inserted represents
  obtain ⟨m', emptied, keys_eq'⟩ := removeLoop_eval T m insertNum (.seeded seed)
  have removes : (remove100M seed insertNum).eval (reference T) m = (some m'.keys.card, m') := by
    rw [remove100M, Client.eval_bind_of_some emptied]
    rfl
  have asks : (remove100M seed insertNum).Asks fun op : Op (BitVec 64) υ => op.inserts = none :=
    (removeLoop_asks insertNum _).bind fun _ => ⟨rfl, fun answer => by cases answer <;> trivial⟩
  obtain ⟨_, removed, -, -⟩ := client_run invariant represents _ (noWrap_of_asks invariant asks)
  rw [removes] at removed
  have drawn_eq : m.keys = ((Sfc64.seeded seed).drawn insertNum).toFinset := by
    rw [keys_eq, Finmap.keys_empty, Finset.empty_union]
  rw [keys_eq', drawn_eq, sdiff_self, Finset.bot_eq_empty, Finset.card_empty] at removed
  rw [drawn_eq] at inserted
  constructor
  · rw [← copyConstruct_eq T s] at removed
    rw [run100M, construct_eq T (ne_zero_of_block capacity_ge), pure_bind]
    exact (Execution.result_bind_of_ok inserted _).trans (Execution.result_bind_of_ok removed _)
  · exact (List.toFinset_card_le _).trans (Sfc64.length_drawn _ _).le

/-- Six words of the seed of the source, on a fresh map. -/
theorem run100M_reports_six :
    (run100M bigTraits 32#32 19990827#64 6).result = .ok (some 6, some 0, some 0) := by
  have distinct : ((Sfc64.seeded 19990827#64).drawn 6).toFinset.card = 6 := by
    decide +kernel
  obtain ⟨returned, -⟩ := run100M_reports bigTraits (show 32 ≤ (32#32).toNat by decide) 19990827#64 6
    (by decide +kernel)
  rwa [distinct] at returned

/-! ## Lookups -/

/-- The generator a lookup draws its key from. -/
inductive Source where
  /-- `rng`. -/
  | rng
  /-- `rng2`. -/
  | rng2
  deriving DecidableEq

/-- The two generators of a benchmark. -/
structure Generators where
  /-- `rng`. -/
  rng : Sfc64
  /-- `rng2`. -/
  rng2 : Sfc64

/-- Draw a word from one of the generators. -/
def Generators.draw (g : Generators) : Source → BitVec 64 × Generators
  | .rng => (g.rng.draw.1, { g with rng := g.rng.draw.2 })
  | .rng2 => (g.rng2.draw.1, { g with rng2 := g.rng2.draw.2 })

/-- `num_found += *it`, for an `int`. -/
def accumulate (numFound : BitVec 32) (value : BigStruct) : BitVec 32 :=
  (numFound.signExtend 64 + value.toWord).setWidth 32

/-- The loop that fills the map: `map[rng()] = rng2()`. -/
def fillLoop : Nat → Generators → MapClient (BitVec 64) BigStruct Generators
  | 0, g => pure g
  | n + 1, g => do
      let (value, g) := g.draw .rng2
      let (key, g) := g.draw .rng
      MapClient.write key (.ofWord value)
      fillLoop n g

/-- The body of the inner loop: one lookup for each source. -/
def lookups (numFound : BitVec 32) (g : Generators) :
    List Source → MapClient (BitVec 64) BigStruct (BitVec 32 × Generators)
  | [] => pure (numFound, g)
  | source :: sources => do
      let (key, g) := g.draw source
      let it ← MapClient.find key
      lookups (it.elim numFound (accumulate numFound)) g sources

/-- What sets the five find benchmarks apart. -/
structure FindBenchmark where
  /-- Rounds of the inner loop. -/
  itNum2 : Nat → Nat
  /-- The inner loop follows a new seeding of `rng2` as well. -/
  reseedsRng2 : Bool
  /-- Sources of the lookups in one round. -/
  sources : List Source

namespace FindBenchmark

/-- `run_benchmark_rbh_find_T100`. -/
def t100 : FindBenchmark := ⟨fun element => element, false, [.rng]⟩

/-- `run_benchmark_rbh_find_T75`. -/
def t75 : FindBenchmark := ⟨fun element => element >>> 2, true, [.rng, .rng, .rng, .rng2]⟩

/-- `run_benchmark_rbh_find_T50`. -/
def t50 : FindBenchmark := ⟨fun element => element >>> 2, true, [.rng, .rng, .rng2, .rng2]⟩

/-- `run_benchmark_rbh_find_T25`. -/
def t25 : FindBenchmark := ⟨fun element => element >>> 2, true, [.rng, .rng2, .rng2, .rng2]⟩

/-- `run_benchmark_rbh_find_T0`. -/
def t0 : FindBenchmark := ⟨fun element => element, false, [.rng2]⟩

variable (b : FindBenchmark) (seed seed2 : BitVec 64) (element : Nat)

/-- The generators at the start of a pass. -/
def reseed (g : Generators) : Generators :=
  ⟨.seeded seed, if b.reseedsRng2 then .seeded seed2 else g.rng2⟩

/-- The inner loop. -/
def innerLoop (sources : List Source) :
    Nat → BitVec 32 → Generators → MapClient (BitVec 64) BigStruct (BitVec 32 × Generators)
  | 0, numFound, g => pure (numFound, g)
  | n + 1, numFound, g => do
      let (numFound, g) ← lookups numFound g sources
      innerLoop sources n numFound g

/-- The outer loop. -/
def outerLoop : Nat → BitVec 32 → Generators → MapClient (BitVec 64) BigStruct (BitVec 32 × Generators)
  | 0, numFound, g => pure (numFound, g)
  | n + 1, numFound, g => do
      let (numFound, g) ← innerLoop b.sources (b.itNum2 element) numFound (b.reseed seed seed2 g)
      outerLoop n numFound g

/-- A find benchmark: what it prints as its result.  It divides by the number of elements. -/
def report (attempts : Nat) : MapClient (BitVec 64) BigStruct (BitVec 32) := do
  let g ← fillLoop element ⟨.seeded seed, .seeded seed2⟩
  Client.guard (element ≠ 0)
  let (numFound, _) ← b.outerLoop seed seed2 element (attempts / element) 0#32 g
  pure numFound

end FindBenchmark

/-! ### Reports from the words alone -/

/-- The words drawn for a list of sources, each with its source, and the generators after. -/
def drawAll (g : Generators) : List Source → List (Source × BitVec 64) × Generators
  | [] => ([], g)
  | source :: sources =>
      ((source, (g.draw source).1) :: (drawAll (g.draw source).2 sources).1,
        (drawAll (g.draw source).2 sources).2)

/-- What lookups of drawn words add up to. -/
def reported (m : Finmap fun _ : BitVec 64 => BigStruct) (words : List (Source × BitVec 64)) : BitVec 32 :=
  (words.map fun drawn => (m.lookup drawn.2).elim 0#32 fun value => value.toWord.setWidth 32).sum

/-- The map a benchmark fills. -/
def filled (g : Generators) (element : Nat) (m : Finmap fun _ : BitVec 64 => BigStruct) :
    Finmap fun _ : BitVec 64 => BigStruct :=
  ((g.rng.drawn element).zip (g.rng2.drawn element)).foldl
    (fun m pair => m.insert pair.1 (.ofWord pair.2)) m

/-- Both generators after some draws. -/
def Generators.skip (g : Generators) (n : Nat) : Generators := ⟨Sfc64.next^[n] g.rng, Sfc64.next^[n] g.rng2⟩

theorem drawAll_append (g : Generators) (sources sources' : List Source) :
    drawAll g (sources ++ sources') =
      ((drawAll g sources).1 ++ (drawAll (drawAll g sources).2 sources').1,
        (drawAll (drawAll g sources).2 sources').2) := by
  induction sources generalizing g with
  | nil => rfl
  | cons source sources induction => rw [List.cons_append, drawAll, induction, drawAll, List.cons_append]

theorem mem_drawn_of_mem_drawAll {g : Generators} {sources : List Source} {word : BitVec 64}
    (member : (.rng, word) ∈ (drawAll g sources).1) : word ∈ g.rng.drawn (sources.count .rng) := by
  induction sources generalizing g with
  | nil => exact (List.not_mem_nil member).elim
  | cons source sources induction =>
      cases source with
      | rng =>
          rw [List.count_cons_self]
          rcases List.mem_cons.mp member with same | later
          · exact List.mem_cons.mpr (Or.inl (congrArg Prod.snd same))
          · exact List.mem_cons_of_mem _ (induction later)
      | rng2 =>
          rw [List.count_cons_of_ne (by decide)]
          rcases List.mem_cons.mp member with same | later
          · exact Source.noConfusion (congrArg Prod.fst same)
          · exact induction (g := (g.draw .rng2).2) later

theorem reported_append (m : Finmap fun _ : BitVec 64 => BigStruct)
    (words words' : List (Source × BitVec 64)) :
    reported m (words ++ words') = reported m words + reported m words' := by
  rw [reported, List.map_append, List.sum_append]
  rfl

/-- Sources that leave `rng2` alone draw the same words whatever its state. -/
theorem drawAll_congr {g g' : Generators} {sources : List Source} (rng_eq : g.rng = g'.rng)
    (rng2_eq : .rng2 ∈ sources → g.rng2 = g'.rng2) :
    (drawAll g sources).1 = (drawAll g' sources).1 := by
  induction sources generalizing g g' with
  | nil => rfl
  | cons source sources induction =>
      obtain ⟨rng, rng2⟩ := g
      obtain ⟨rng', rng2'⟩ := g'
      obtain rfl : rng = rng' := rng_eq
      cases source with
      | rng =>
          have later : (drawAll ⟨rng.next, rng2⟩ sources).1 = (drawAll ⟨rng.next, rng2'⟩ sources).1 :=
            induction rfl fun member => rng2_eq (List.mem_cons_of_mem _ member)
          exact congrArg (List.cons (Source.rng, rng.draw.1)) later
      | rng2 =>
          obtain rfl : rng2 = rng2' := rng2_eq List.mem_cons_self
          rfl

theorem mem_filled (g : Generators) (n : Nat) (m : Finmap fun _ : BitVec 64 => BigStruct)
    (key : BitVec 64) : key ∈ filled g n m ↔ key ∈ g.rng.drawn n ∨ key ∈ m := by
  induction n generalizing g m with
  | zero => simp [filled, Sfc64.drawn]
  | succ n induction =>
      have later := induction ⟨g.rng.next, g.rng2.next⟩ (m.insert g.rng.draw.1 (.ofWord g.rng2.draw.1))
      rw [Sfc64.drawn, List.mem_cons, or_assoc, or_left_comm, ← Finmap.mem_insert]
      exact later

/-- The sum of an `int` and a word, kept as an `int`, is the sum of low halves. -/
theorem accumulate_eq (numFound : BitVec 32) (value : BigStruct) :
    accumulate numFound value = numFound + value.toWord.setWidth 32 := by
  have low : (numFound.signExtend 64).setWidth 32 = numFound := by
    apply BitVec.eq_of_getLsbD_eq
    intro i inside
    simp [BitVec.getLsbD_signExtend, inside]
    omega
  rw [accumulate, BitVec.setWidth_add _ _ (by decide), low]

section Evaluation

variable (m : Finmap fun _ : BitVec 64 => BigStruct)

theorem fillLoop_eval (n : Nat) (g : Generators) :
    (fillLoop n g).eval (reference bigTraits) m = (some (g.skip n), filled g n m) := by
  induction n generalizing g m with
  | zero => rfl
  | succ n induction => exact induction _ ⟨g.rng.next, g.rng2.next⟩

theorem lookups_eval (numFound : BitVec 32) (g : Generators) (sources : List Source) :
    (lookups numFound g sources).eval (reference bigTraits) m =
      (some (numFound + reported m (drawAll g sources).1, (drawAll g sources).2), m) := by
  induction sources generalizing numFound g with
  | nil => simp [lookups, drawAll, reported]
  | cons source sources induction =>
      refine (induction ((m.lookup (g.draw source).1).elim numFound (accumulate numFound))
        (g.draw source).2).trans ?_
      have sum_eq : (m.lookup (g.draw source).1).elim numFound (accumulate numFound) =
          numFound + (m.lookup (g.draw source).1).elim 0#32 fun value => value.toWord.setWidth 32 := by
        cases m.lookup (g.draw source).1 with
        | none => exact (BitVec.add_zero numFound).symm
        | some value => exact accumulate_eq numFound value
      rw [sum_eq, add_assoc]
      rfl

end Evaluation

namespace FindBenchmark

variable (b : FindBenchmark) (seed seed2 : BitVec 64) (element : Nat)

/-- The sources of one pass of the inner loop. -/
def passSources : List Source := (List.replicate (b.itNum2 element) b.sources).flatten

/-- The words looked up in several passes of the outer loop. -/
def wordsDrawn : Nat → Generators → List (Source × BitVec 64)
  | 0, _ => []
  | n + 1, g =>
      (drawAll (b.reseed seed seed2 g) (b.passSources element)).1 ++
        wordsDrawn n (drawAll (b.reseed seed seed2 g) (b.passSources element)).2

section Evaluation

variable (m : Finmap fun _ : BitVec 64 => BigStruct)

theorem innerLoop_eval (sources : List Source) (n : Nat) (numFound : BitVec 32) (g : Generators) :
    (innerLoop sources n numFound g).eval (reference bigTraits) m =
      (some (numFound + reported m (drawAll g (List.replicate n sources).flatten).1,
        (drawAll g (List.replicate n sources).flatten).2), m) := by
  induction n generalizing numFound g with
  | zero => simp [innerLoop, drawAll, reported]
  | succ n induction =>
      refine (Client.eval_bind_of_some (lookups_eval m numFound g sources) _).trans
        ((induction _ _).trans ?_)
      rw [List.replicate_succ, List.flatten_cons, drawAll_append, reported_append, add_assoc]

theorem outerLoop_eval (n : Nat) (numFound : BitVec 32) (g : Generators) :
    ∃ g', (b.outerLoop seed seed2 element n numFound g).eval (reference bigTraits) m =
      (some (numFound + reported m (b.wordsDrawn seed seed2 element n g), g'), m) := by
  induction n generalizing numFound g with
  | zero => exact ⟨g, by simp [outerLoop, wordsDrawn, reported]⟩
  | succ n induction =>
      obtain ⟨g', evaluated⟩ := induction
        (numFound + reported m (drawAll (b.reseed seed seed2 g) (b.passSources element)).1)
        (drawAll (b.reseed seed seed2 g) (b.passSources element)).2
      refine ⟨g', (Client.eval_bind_of_some (innerLoop_eval m _ _ _ _) _).trans (evaluated.trans ?_)⟩
      rw [wordsDrawn, reported_append, add_assoc]

end Evaluation

/-- A lookup of a word from `rng` finds it, in a benchmark that draws no more of these in a pass than it
has stored. -/
theorem mem_filled_of_mem_wordsDrawn {b : FindBenchmark}
    (within : b.itNum2 element * b.sources.count .rng ≤ element) {n : Nat} {g : Generators}
    {word : BitVec 64} (member : (.rng, word) ∈ b.wordsDrawn seed seed2 element n g) :
    word ∈ (Sfc64.seeded seed).drawn element := by
  induction n generalizing g with
  | zero => exact (List.not_mem_nil member).elim
  | succ n induction =>
      rcases List.mem_append.mp member with here | later
      · have drawn := mem_drawn_of_mem_drawAll here
        rw [passSources, List.count_flatten, List.map_replicate, List.sum_replicate, smul_eq_mul] at drawn
        exact (Sfc64.drawn_prefix _ within).subset drawn
      · exact induction later

/-- Where every pass starts from the same generators, it draws the same words. -/
theorem reported_wordsDrawn {b : FindBenchmark} (again : b.reseedsRng2 = true ∨ .rng2 ∉ b.sources)
    (m : Finmap fun _ : BitVec 64 => BigStruct) (n : Nat) (g : Generators) :
    reported m (b.wordsDrawn seed seed2 element n g) =
      n • reported m (drawAll ⟨.seeded seed, .seeded seed2⟩ (b.passSources element)).1 := by
  induction n generalizing g with
  | zero => rw [zero_nsmul]; rfl
  | succ n induction =>
      have pass_eq : (drawAll (b.reseed seed seed2 g) (b.passSources element)).1 =
          (drawAll ⟨.seeded seed, .seeded seed2⟩ (b.passSources element)).1 := by
        refine drawAll_congr rfl fun member => ?_
        rcases again with reseeds | absent
        · exact if_pos reseeds
        · obtain ⟨sources, copied, inside⟩ := List.mem_flatten.mp member
          rw [List.eq_of_mem_replicate copied] at inside
          exact (absent inside).elim
      rw [wordsDrawn, reported_append, pass_eq, induction, succ_nsmul']

/-- The five find benchmarks of `main`. -/
def all : List FindBenchmark := [t100, t75, t50, t25, t0]

theorem within_of_mem_all {b : FindBenchmark} (listed : b ∈ all) (element : Nat) :
    b.itNum2 element * b.sources.count .rng ≤ element := by
  have quarter : element >>> 2 = element / 4 := Nat.shiftRight_eq_div_pow element 2
  simp only [all, List.mem_cons, List.not_mem_nil, or_false] at listed
  rcases listed with rfl | rfl | rfl | rfl | rfl <;>
    simp [t100, t75, t50, t25, t0, quarter] <;> omega

theorem again_of_mem_all {b : FindBenchmark} (listed : b ∈ all) (other : b ≠ t0) :
    b.reseedsRng2 = true ∨ .rng2 ∉ b.sources := by
  simp only [all, List.mem_cons, List.not_mem_nil, or_false] at listed
  rcases listed with rfl | rfl | rfl | rfl | rfl
  · exact Or.inr (by decide)
  · exact Or.inl rfl
  · exact Or.inl rfl
  · exact Or.inl rfl
  · exact (other rfl).elim

/-! ### Lookups insert nothing -/

theorem lookups_asks (numFound : BitVec 32) (g : Generators) (sources : List Source) :
    (lookups numFound g sources).Asks fun op => op.inserts = none := by
  induction sources generalizing numFound g with
  | nil => trivial
  | cons source sources induction =>
      refine ⟨rfl, fun answer => ?_⟩
      cases answer with
      | pointer value => exact induction _ _
      | done | value _ | size _ => trivial

theorem innerLoop_asks (sources : List Source) (n : Nat) (numFound : BitVec 32) (g : Generators) :
    (innerLoop sources n numFound g).Asks fun op => op.inserts = none := by
  induction n generalizing numFound g with
  | zero => trivial
  | succ n induction => exact (lookups_asks numFound g sources).bind fun _ => induction _ _

theorem outerLoop_asks (n : Nat) (numFound : BitVec 32) (g : Generators) :
    (b.outerLoop seed seed2 element n numFound g).Asks fun op => op.inserts = none := by
  induction n generalizing numFound g with
  | zero => trivial
  | succ n induction => exact (innerLoop_asks _ _ _ _).bind fun _ => induction _ _

end FindBenchmark

open FindBenchmark in
/-- Each find benchmark on a map whose filling overflows no doubling prints the sum, as an `int`, of the
values a finite map would find; its lookups leave the map as it was filled, every word from `rng` is
found, and in all but the last benchmark each pass adds the same sum. -/
theorem find_reports {b : FindBenchmark} (listed : b ∈ FindBenchmark.all) (seed seed2 : BitVec 64)
    {element : Nat} (positive : 0 < element) (attempts : Nat) {capacity : BitVec 32}
    (capacity_ge : 32 ≤ capacity.toNat)
    (no_wrap : NoWrap (clientSession bigTraits capacity
      (fillLoop element ⟨.seeded seed, .seeded seed2⟩))) :
    let start : Generators := ⟨.seeded seed, .seeded seed2⟩
    let stored := filled start element ∅
    let words := b.wordsDrawn seed seed2 element (attempts / element) (start.skip element)
    ∃ s, (clientSession bigTraits capacity (b.report seed seed2 element attempts)).result =
        .ok (some (reported stored words), s) ∧
      Represents s stored ∧ (∀ word, (.rng, word) ∈ words → word ∈ stored) ∧
      (b ≠ t0 → reported stored words =
        (attempts / element) • reported stored (drawAll start (b.passSources element)).1) := by
  intro start stored words
  obtain ⟨invariant, entries_nil⟩ := freshTable_spec bigTraits capacity_ge
  have fresh : Represents (freshTable bigTraits capacity) ∅ := Represents.of_entries_nil entries_nil
  rw [clientSession, construct_eq bigTraits (ne_zero_of_block capacity_ge), pure_bind] at no_wrap ⊢
  have quiet : NoWrap ((b.report seed seed2 element attempts).run (step bigTraits)
      (freshTable bigTraits capacity)) := by
    refine noWrap_bind_of_asks invariant no_wrap fun g => ?_
    refine Client.Asks.bind ?_ fun _ => (outerLoop_asks _ _ _ _ _ _ _).bind fun _ => trivial
    rw [Client.guard]
    split_ifs <;> trivial
  obtain ⟨g, evaluated⟩ := outerLoop_eval b seed seed2 element stored (attempts / element) 0#32
    (start.skip element)
  have reports : (b.report seed seed2 element attempts).eval (reference bigTraits) ∅ =
      (some (reported stored words), stored) := by
    rw [report, Client.eval_bind_of_some (fillLoop_eval ∅ element start), Client.eval_guard_bind,
      if_pos (by simpa using positive.ne'), Client.eval_bind_of_some evaluated, BitVec.zero_add]
    rfl
  obtain ⟨s, returned, -, represents⟩ := client_run invariant fresh _ quiet
  rw [reports] at returned represents
  refine ⟨s, returned, represents, fun word member => ?_, fun other => ?_⟩
  · exact (mem_filled start element ∅ word).mpr
      (Or.inl (mem_filled_of_mem_wordsDrawn _ _ _ (within_of_mem_all listed element) member))
  · exact reported_wordsDrawn _ _ _ (again_of_mem_all listed other) _ _ _

theorem fillLoop_asks (n : Nat) (g : Generators) :
    (fillLoop n g).Asks fun op => ∀ key, op.inserts = some key → key ∈ (g.rng.drawn n).toFinset := by
  have asks_within : ∀ words : Finset (BitVec 64), (g.rng.drawn n).toFinset ⊆ words →
      (fillLoop n g).Asks fun op => ∀ key, op.inserts = some key → key ∈ words := by
    intro words
    induction n generalizing g with
    | zero => exact fun _ => trivial
    | succ n induction =>
        intro within
        refine ⟨?_, fun answer => induction ⟨g.rng.next, g.rng2.next⟩ ?_⟩
        · rintro key ⟨⟩
          exact within (List.mem_toFinset.mpr List.mem_cons_self)
        · intro key member
          exact within (List.mem_toFinset.mpr (List.mem_cons_of_mem _ (List.mem_toFinset.mp member)))
  exact asks_within _ subset_rfl

/-- A find benchmark as `main` runs it on a hundred elements. -/
def mainFind (b : FindBenchmark) : Exec (Option (BitVec 32) × Hashmap (BitVec 64) BigStruct) :=
  clientSession bigTraits 32#32 (b.report 19990827#64 2020024357#64 100 500000000)

/-- What one pass of it adds up to. -/
def mainPass (b : FindBenchmark) : BitVec 32 :=
  reported (filled ⟨.seeded 19990827#64, .seeded 2020024357#64⟩ 100 ∅)
    (drawAll ⟨.seeded 19990827#64, .seeded 2020024357#64⟩ (b.passSources 100)).1

/-- On a hundred elements `main` is printed what it expects. -/
theorem find_reports_main :
    (∃ s, (mainFind .t100).result = .ok (some (BitVec.ofInt 32 (-823732416)), s)) ∧
      (∃ s, (mainFind .t75).result = .ok (some (BitVec.ofInt 32 (-2007611776)), s)) ∧
      (∃ s, (mainFind .t50).result = .ok (some (BitVec.ofInt 32 (-1800003584)), s)) ∧
      (∃ s, (mainFind .t25).result = .ok (some (BitVec.ofInt 32 491358464), s)) := by
  have room : ∀ p ∈ ((Sfc64.seeded 19990827#64).drawn 100).map (blockUnder 8),
      (((Sfc64.seeded 19990827#64).drawn 100).map (blockUnder 8)).count p ≤ 32 := by
    decide +kernel
  have part_eq : levelBlock bigTraits 32#32 3 = blockUnder 8 := by
    have log_eq : Nat.log 2 (32#32).toNat = 5 := Nat.log_pow (b := 2) (x := 5) (by decide)
    funext key
    rw [levelBlock, log_eq]
    rfl
  have fits : FitsAfter bigTraits 32#32 ((Sfc64.seeded 19990827#64).drawn 100).toFinset 3 := by
    apply Levels.fits_toFinset
    rwa [part_eq]
  have no_wrap := noWrap_of_fits bigTraits (show 32 ≤ (32#32).toNat by decide)
    (fillLoop_asks 100 ⟨.seeded 19990827#64, .seeded 2020024357#64⟩) (by decide) fits
  have prints : ∀ (b : FindBenchmark) (sum : BitVec 32), b ∈ FindBenchmark.all → b ≠ .t0 →
      BitVec.ofNat 32 5000000 * mainPass b = sum → ∃ s, (mainFind b).result = .ok (some sum, s) := by
    rintro b _ member other rfl
    obtain ⟨s, returned, -, -, passes⟩ := find_reports member 19990827#64 2020024357#64
      (show 0 < 100 by decide) 500000000 (show 32 ≤ (32#32).toNat by decide) no_wrap
    rw [passes other, nsmul_eq_mul, BitVec.natCast_eq_ofNat] at returned
    exact ⟨s, returned⟩
  have differ : ∀ b : FindBenchmark, b.sources ≠ [.rng2] → b ≠ .t0 :=
    fun b sources_ne same => sources_ne (congrArg FindBenchmark.sources same)
  refine ⟨prints .t100 _ ?_ (differ _ (by decide)) (by decide +kernel),
    prints .t75 _ ?_ (differ _ (by decide)) (by decide +kernel),
    prints .t50 _ ?_ (differ _ (by decide)) (by decide +kernel),
    prints .t25 _ ?_ (differ _ (by decide)) (by decide +kernel)⟩ <;> simp [FindBenchmark.all]

end Benchmark

end RobinHoodHashmap
