import Mathlib.Data.FinEnum
import Mathlib.Dynamics.PeriodicPts.Lemmas
import RobinHoodHashmap.Int128
import RobinHoodHashmap.Scaling

/-!
# The random numbers of the benchmarks

`sfc64` mixes three words and a counter.  A draw can be taken back, so different states never meet, and
the counter keeps every state from recurring before `2^64` draws.  A bounded draw scales a word down
through a product of two words.
-/

namespace RobinHoodHashmap

open Int128 Scaling

/-- `sfc64`. -/
@[ext] structure Sfc64 where
  /-- `m_a`. -/
  a : BitVec 64
  /-- `m_b`. -/
  b : BitVec 64
  /-- `m_c`. -/
  c : BitVec 64
  /-- `m_counter`. -/
  counter : BitVec 64
  deriving DecidableEq

namespace Sfc64

/-- `rotl` on words. -/
def rotl (x : BitVec 64) (k : Nat) : BitVec 64 := x <<< k ||| x >>> (64 - k)

/-- `operator()()`: the number drawn and the generator after it. -/
def draw (g : Sfc64) : BitVec 64 × Sfc64 :=
  let tmp := g.a + g.b + g.counter
  (tmp,
    { a := g.b ^^^ g.b >>> 11
      b := g.c + g.c <<< 3
      c := rotl g.c 24 + tmp
      counter := g.counter + 1 })

/-- The generator after one draw. -/
def next (g : Sfc64) : Sfc64 := g.draw.2

/-- `sfc64(uint64_t seed)`: the first twelve draws are thrown away. -/
def seeded (seed : BitVec 64) : Sfc64 := next^[12] ⟨seed, seed, seed, 1#64⟩

/-- `operator()(uint64_t boundExcluded)`. -/
def drawBelow (g : Sfc64) (boundExcluded : BitVec 64) : BitVec 64 × Sfc64 :=
  let (word, g) := g.draw
  ((unsignedRightShift (multiply (.ofWord word) (.ofWord boundExcluded)) 64#8).low, g)

/-! ## Taking a draw back -/

/-- Undo `x ^ (x >> 11)`: each round gets eleven more bits right. -/
def unshifted (x : BitVec 64) : BitVec 64 := (fun y : BitVec 64 => x ^^^ y >>> 11)^[5] x

/-- The generator before a draw; the constant is the inverse of the nine in `c + (c << 3)`. -/
def previous (g : Sfc64) : Sfc64 :=
  let c := 0x8e38e38e38e38e39#64 * g.b
  let b := unshifted g.a
  let counter := g.counter - 1
  { a := g.c - rotl c 24 - counter - b, b, c, counter }

/-- The rounds push what is left of the shifted copy out of the word. -/
theorem iterate_unshift {w : Nat} (x : BitVec w) (k n : Nat) :
    (fun y : BitVec w => (x ^^^ x >>> k) ^^^ y >>> k)^[n] (x ^^^ x >>> k) = x ^^^ x >>> (k * (n + 1)) := by
  induction n with
  | zero => rw [Nat.zero_add, Nat.mul_one, Function.iterate_zero, id]
  | succ n induction =>
      rw [Function.iterate_succ_apply', induction, BitVec.ushiftRight_xor_distrib, ← BitVec.shiftRight_add,
        ← Nat.mul_succ, BitVec.xor_assoc, ← BitVec.xor_assoc (x >>> k), BitVec.xor_self, BitVec.zero_xor]

theorem unshifted_xor (x : BitVec 64) : unshifted (x ^^^ x >>> 11) = x := by
  rw [unshifted, iterate_unshift, BitVec.ushiftRight_eq_zero (by decide), BitVec.xor_zero]

theorem mul_add_shiftLeft (c : BitVec 64) : 0x8e38e38e38e38e39#64 * (c + c <<< 3) = c := by
  apply BitVec.eq_of_toNat_eq
  simp only [BitVec.toNat_add, BitVec.toNat_mul, BitVec.toNat_shiftLeft, BitVec.toNat_ofNat,
    Nat.shiftLeft_eq]
  omega

theorem previous_next (g : Sfc64) : g.next.previous = g := by
  have c_eq : g.next.previous.c = g.c := mul_add_shiftLeft g.c
  have b_eq : g.next.previous.b = g.b := unshifted_xor g.b
  have counter_eq : g.next.previous.counter = g.counter := BitVec.add_sub_cancel g.counter 1
  have a_eq : g.next.previous.a = g.a := by
    calc
      g.next.previous.a = g.next.c - rotl g.next.previous.c 24 - g.next.previous.counter -
          g.next.previous.b := rfl
      _ = rotl g.c 24 + (g.a + g.b + g.counter) - rotl g.c 24 - g.counter - g.b := by
        rw [c_eq, b_eq, counter_eq]
        rfl
      _ = g.a := by bv_omega
  exact Sfc64.ext a_eq b_eq c_eq counter_eq

theorem next_injective : Function.Injective next := Function.LeftInverse.injective previous_next

instance : Finite Sfc64 :=
  Finite.of_injective (fun g : Sfc64 => (g.a, g.b, g.c, g.counter)) fun g g' same => by
    simp only [Prod.mk.injEq] at same
    exact Sfc64.ext same.1 same.2.1 same.2.2.1 same.2.2.2

theorem next_previous (g : Sfc64) : g.previous.next = g := by
  obtain ⟨before, rfl⟩ := Finite.surjective_of_injective next_injective g
  rw [previous_next]

/-! ## Recurrence -/

theorem counter_iterate (g : Sfc64) (n : Nat) :
    (next^[n] g).counter = g.counter + BitVec.ofNat 64 n := by
  induction n with
  | zero => simp
  | succ n induction =>
      rw [Function.iterate_succ_apply', BitVec.ofNat_add, ← BitVec.add_assoc, ← induction]
      rfl

/-- Draws can be taken back, so every state recurs, but never before a multiple of `2^64` draws; and two
generators that agree after some draws have agreed all along. -/
theorem next_recurs (g : Sfc64) :
    g.next.previous = g ∧ g.previous.next = g ∧
      0 < Function.minimalPeriod next g ∧ 2 ^ 64 ∣ Function.minimalPeriod next g ∧
      ∀ g' n, next^[n] g = next^[n] g' → g = g' := by
  refine ⟨previous_next g, next_previous g, ?_, ?_, fun g' n same => next_injective.iterate n same⟩
  · exact Function.minimalPeriod_pos_of_mem_periodicPts (next_injective.mem_periodicPts g)
  · have counter_eq := counter_iterate g (Function.minimalPeriod next g)
    rw [Function.iterate_minimalPeriod, BitVec.self_eq_add_right] at counter_eq
    apply Nat.dvd_of_mod_eq_zero
    simpa using congrArg BitVec.toNat counter_eq

/-! ## Bounded draws -/

/-- A bounded draw keeps the high word of the product. -/
theorem drawBelow_toNat (g : Sfc64) (boundExcluded : BitVec 64) :
    (g.drawBelow boundExcluded).1.toNat =
      scaled (2 ^ 64) boundExcluded.toNat (g.a + g.b + g.counter).toNat := by
  set product := multiply (.ofWord (g.a + g.b + g.counter)) (.ofWord boundExcluded) with product_eq
  have spelt : product.toNat = (g.a + g.b + g.counter).toNat * boundExcluded.toNat := by
    have small := Nat.mul_lt_mul'' (g.a + g.b + g.counter).isLt boundExcluded.isLt
    rw [product_eq, multiply_toNat, Nat.mod_eq_of_lt] <;> simp only [Base128.toNat, Base128.ofWord,
      BitVec.toNat_ofNat, Nat.zero_mod, Nat.mul_zero, Nat.add_zero]
    exact small
  have high_zero : (unsignedRightShift product 64#8).high = 0#64 := by simp [unsignedRightShift]
  have shifted : (unsignedRightShift product 64#8).toNat = product.toNat / 2 ^ 64 :=
    unsignedRightShift_toNat product (by decide)
  rw [Base128.toNat, high_zero, spelt] at shifted
  exact shifted

/-- The numbers of the first word for which a bounded draw gives `value`, the other words given. -/
def leadingTo (b c counter boundExcluded : BitVec 64) (value : Nat) : Finset (BitVec 64) :=
  {a | ((Sfc64.mk a b c counter).drawBelow boundExcluded).1.toNat = value}

theorem card_leadingTo (b c counter boundExcluded : BitVec 64) (value : Nat) :
    (leadingTo b c counter boundExcluded value).card =
      (fibre (2 ^ 64) boundExcluded.toNat value).card := by
  have member : ∀ a, a ∈ leadingTo b c counter boundExcluded value ↔
      scaled (2 ^ 64) boundExcluded.toNat (a + b + counter).toNat = value := by
    intro a
    rw [leadingTo, Finset.mem_filter, drawBelow_toNat]
    exact and_iff_right (Finset.mem_univ a)
  have back : ∀ word : BitVec 64, word - counter - b + b + counter = word := by
    intro word
    bv_omega
  have spelt : ∀ x ∈ fibre (2 ^ 64) boundExcluded.toNat value, (BitVec.ofNat 64 x).toNat = x := by
    intro x inside
    rw [BitVec.toNat_ofNat, Nat.mod_eq_of_lt (Finset.mem_range.mp (Finset.mem_filter.mp inside).1)]
  refine Finset.card_nbij' (fun a => (a + b + counter).toNat)
    (fun x => BitVec.ofNat 64 x - counter - b) (fun a leads => ?_) (fun x inside => ?_) (fun a _ => ?_)
    fun x inside => ?_
  · exact Finset.mem_filter.mpr ⟨Finset.mem_range.mpr (BitVec.isLt _), (member a).mp leads⟩
  · rw [Finset.mem_coe, member, back, spelt x inside]
    exact (Finset.mem_filter.mp inside).2
  · simp only [BitVec.ofNat_toNat, BitVec.setWidth_eq]
    bv_omega
  · simp only [back]
    exact spelt x inside

/-- A bounded draw stays below its bound; over the first word its values differ in frequency by at most
one part, and by none exactly when the bound is a power of two. -/
theorem drawBelow_fair (b c counter : BitVec 64) {boundExcluded : BitVec 64}
    (positive : 0 < boundExcluded.toNat) :
    (∀ a, ((Sfc64.mk a b c counter).drawBelow boundExcluded).1.toNat < boundExcluded.toNat) ∧
      (∀ value < boundExcluded.toNat,
        2 ^ 64 / boundExcluded.toNat ≤ (leadingTo b c counter boundExcluded value).card ∧
          (leadingTo b c counter boundExcluded value).card ≤ 2 ^ 64 / boundExcluded.toNat + 1) ∧
      ((∀ value < boundExcluded.toNat,
          (leadingTo b c counter boundExcluded value).card = 2 ^ 64 / boundExcluded.toNat) ↔
        ∃ k, boundExcluded.toNat = 2 ^ k) := by
  refine ⟨fun a => ?_, fun value below => ?_, ?_⟩
  · rw [drawBelow_toNat]
    exact scaled_lt (BitVec.isLt _) positive
  · rw [card_leadingTo]
    exact card_fibre_le (by decide) below
  · simp only [card_leadingTo]
    rw [card_fibre_const_iff (by decide) positive, Nat.dvd_prime_pow Nat.prime_two]
    constructor
    · rintro ⟨k, -, power⟩
      exact ⟨k, power⟩
    · rintro ⟨k, power⟩
      have small := boundExcluded.isLt
      rw [power] at small
      exact ⟨k, ((Nat.pow_lt_pow_iff_right (by decide)).mp small).le, power⟩

/-- A bounded draw throws no fair die. -/
theorem drawBelow_fair_die :
    (∀ a, ((Sfc64.mk a 1#64 2#64 3#64).drawBelow 6#64).1.toNat < 6) ∧
      ¬∀ value < 6, (leadingTo 1#64 2#64 3#64 6#64 value).card = 2 ^ 64 / 6 := by
  have fair := drawBelow_fair 1#64 2#64 3#64 (show 0 < (6#64).toNat by decide)
  refine ⟨fair.1, fun equal => ?_⟩
  obtain ⟨k, power⟩ : ∃ k, 6 = 2 ^ k := fair.2.2.mp equal
  have three : 3 ∣ 2 ^ k := by
    rw [← power]
    decide
  exact absurd (Nat.prime_three.dvd_of_dvd_pow three) (by decide)

end Sfc64

end RobinHoodHashmap
