import Mathlib.Algebra.Order.Floor.Div
import Mathlib.Order.Interval.Finset.Nat
import Mathlib.Tactic

/-!
# Scaling a range

Multiplying a number below `n` by a bound and dividing by `n` gives a number below the bound.  Each of
them is hit equally often, up to one.
-/

namespace Scaling

variable {n bound : Nat}

/-- A number below `n` scaled to the numbers below the bound. -/
def scaled (n bound x : Nat) : Nat := x * bound / n

/-- The numbers scaled to `value`. -/
def fibre (n bound value : Nat) : Finset Nat := {x ∈ Finset.range n | scaled n bound x = value}

theorem scaled_lt {x : Nat} (inside : x < n) (positive : 0 < bound) : scaled n bound x < bound := by
  apply Nat.div_lt_of_lt_mul
  exact Nat.mul_lt_mul_of_pos_right inside positive

theorem fibre_eq_Ico {value : Nat} (nonempty : 0 < n) (below : value < bound) :
    fibre n bound value = Finset.Ico ((value * n) ⌈/⌉ bound) (((value + 1) * n) ⌈/⌉ bound) := by
  have positive : 0 < bound := by omega
  ext x
  have low : (value * n) ⌈/⌉ bound ≤ x ↔ value * n ≤ x * bound := by
    rw [ceilDiv_le_iff_le_mul positive, Nat.mul_comm bound]
  have high : x < ((value + 1) * n) ⌈/⌉ bound ↔ x * bound < (value + 1) * n := by
    rw [← not_le, ceilDiv_le_iff_le_mul positive, not_le, Nat.mul_comm bound]
  rw [fibre, Finset.mem_filter, Finset.mem_range, Finset.mem_Ico, low, high, scaled]
  constructor
  · rintro ⟨-, rfl⟩
    exact ⟨Nat.div_mul_le_self _ _, Nat.lt_mul_of_div_lt (Nat.lt_succ_self _) nonempty⟩
  · rintro ⟨lower, upper⟩
    refine ⟨?_, Nat.div_eq_of_lt_le lower upper⟩
    have capped : (value + 1) * n ≤ bound * n := Nat.mul_le_mul_right n below
    exact Nat.lt_of_mul_lt_mul_right ((upper.trans_le capped).trans_eq (Nat.mul_comm bound n))

/-- The fibre is as long as rounding up its two ends makes it. -/
theorem card_fibre_eq {value : Nat} (nonempty : 0 < n) (below : value < bound) :
    (fibre n bound value).card = n / bound +
      if bound ≤ (value * n + (bound - 1)) % bound + n % bound then 1 else 0 := by
  have positive : 0 < bound := by omega
  have ends : (value + 1) * n + bound - 1 = value * n + (bound - 1) + n := by
    rw [Nat.succ_mul]
    omega
  rw [fibre_eq_Ico nonempty below, Nat.card_Ico, Nat.ceilDiv_eq_add_pred_div,
    Nat.ceilDiv_eq_add_pred_div, ends, Nat.add_sub_assoc (show 1 ≤ bound from positive), Nat.add_div positive,
    Nat.add_assoc, Nat.add_sub_cancel_left]

theorem card_fibre_le {value : Nat} (nonempty : 0 < n) (below : value < bound) :
    n / bound ≤ (fibre n bound value).card ∧ (fibre n bound value).card ≤ n / bound + 1 := by
  rw [card_fibre_eq nonempty below]
  split <;> omega

/-- All numbers below the bound are hit equally often exactly when the bound divides the range. -/
theorem card_fibre_const_iff (nonempty : 0 < n) (positive : 0 < bound) :
    (∀ value < bound, (fibre n bound value).card = n / bound) ↔ bound ∣ n := by
  constructor
  · intro equal
    have total : ∑ value ∈ Finset.range bound, (fibre n bound value).card = n := by
      have counted := Finset.card_eq_sum_card_fiberwise (s := Finset.range n) (t := Finset.range bound)
        (f := scaled n bound) fun x inside => by
          simp only [Finset.coe_range, Set.mem_Iio] at inside ⊢
          exact scaled_lt inside positive
      rw [Finset.card_range] at counted
      exact counted.symm
    have same : ∑ value ∈ Finset.range bound, (fibre n bound value).card = bound * (n / bound) := by
      rw [Finset.sum_congr rfl fun value inside => equal value (Finset.mem_range.mp inside),
        Finset.sum_const, Finset.card_range, smul_eq_mul]
    exact ⟨n / bound, total.symm.trans same⟩
  · rintro divides value below
    have small := Nat.mod_lt (value * n + (bound - 1)) positive
    rw [card_fibre_eq nonempty below, Nat.mod_eq_zero_of_dvd divides, if_neg (by omega), Nat.add_zero]

end Scaling
