import Mathlib.Algebra.BigOperators.Fin
import Mathlib.Tactic

/-!
# Positional notation in place

Digits in a fixed array, least first, and what writing one of them does to the number they spell.
-/

namespace Positional

variable {n base : Nat}

/-- The number spelt by the digits below position `k`. -/
def below (base : Nat) (digits : Fin n → Nat) (k : Nat) : Nat :=
  ∑ i : Fin n with i.val < k, digits i * base ^ i.val

/-- The number spelt by all digits. -/
def value (base : Nat) (digits : Fin n → Nat) : Nat := ∑ i, digits i * base ^ i.val

theorem below_zero (base : Nat) (digits : Fin n → Nat) : below base digits 0 = 0 := by
  simp [below]

theorem below_all (base : Nat) (digits : Fin n → Nat) : below base digits n = value base digits := by
  simp [below, value]

theorem below_succ (base : Nat) (digits : Fin n → Nat) {k : Nat} (inside : k < n) :
    below base digits (k + 1) = below base digits k + digits ⟨k, inside⟩ * base ^ k := by
  have grown : (Finset.univ.filter fun i : Fin n => i.val < k + 1) =
      insert ⟨k, inside⟩ (Finset.univ.filter fun i : Fin n => i.val < k) := by
    ext i
    simp only [Finset.mem_filter, Finset.mem_univ, true_and, Finset.mem_insert, Fin.ext_iff]
    omega
  rw [below, grown, Finset.sum_insert (by simp), Nat.add_comm, below]

theorem value_zero (base : Nat) : value base (fun _ : Fin n => 0) = 0 := by
  simp [value]

/-- Writing a digit replaces its share. -/
theorem value_update (base : Nat) (digits : Fin n → Nat) (position : Fin n) (digit : Nat) :
    value base (Function.update digits position digit) + digits position * base ^ position.val =
      value base digits + digit * base ^ position.val := by
  have others : ∑ i ∈ Finset.univ.erase position,
        Function.update digits position digit i * base ^ i.val =
      ∑ i ∈ Finset.univ.erase position, digits i * base ^ i.val := by
    refine Finset.sum_congr rfl fun i member => ?_
    rw [Function.update_of_ne (Finset.ne_of_mem_erase member)]
  rw [value, value, ← Finset.sum_erase_add _ _ (Finset.mem_univ position), others,
    ← Finset.sum_erase_add (a := position) Finset.univ (fun i => digits i * base ^ i.val)
      (Finset.mem_univ position), Function.update_self]
  omega

/-- Adding to a digit in place: the digit keeps the remainder and the carry moves one position up. -/
theorem value_update_carry (base : Nat) (digits : Fin n → Nat) (position : Fin n) (addend : Nat) :
    value base (Function.update digits position ((addend + digits position) % base)) +
        (addend + digits position) / base * base ^ (position.val + 1) =
      value base digits + addend * base ^ position.val := by
  have written := value_update base digits position ((addend + digits position) % base)
  have split : (addend + digits position) % base * base ^ position.val +
      (addend + digits position) / base * base ^ (position.val + 1) =
        addend * base ^ position.val + digits position * base ^ position.val := by
    rw [Nat.pow_succ', ← Nat.mul_assoc, ← Nat.add_mul, Nat.mod_add_div', Nat.add_mul]
  omega

end Positional
