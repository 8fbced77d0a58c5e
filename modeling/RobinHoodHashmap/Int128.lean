import RobinHoodHashmap.Positional

/-!
# Two-word integers

The part of `__msvc_int128.hpp` under the random numbers of the benchmarks: multiplication by Knuth's
algorithm M on thirty-two bit digits, which stands in for the widening multiplication where that is no
machine instruction, and the shift of both words.
-/

namespace RobinHoodHashmap.Int128

open Positional

variable {m n : Nat}

/-! ## Digits -/

/-- Digits to base `2^32`. -/
abbrev Digits (n : Nat) := Fin n → BitVec 32

/-- The number spelt by an array of digits. -/
def Digits.toNat (digits : Digits n) : Nat := value (2 ^ 32) fun i => (digits i).toNat

/-- One round of the inner loop of `_Knuth_4_3_1_M`: the carry in the lower half of `__t`, and `__w`. -/
def mulRound (u : Digits m) (v : Digits n) (j : Fin n) (i : Nat) (inside : i < m)
    (state : BitVec 64 × Digits (n + m)) : BitVec 64 × Digits (n + m) :=
  let position : Fin (n + m) := ⟨i + j, by omega⟩
  let t := state.1 +
    ((u ⟨i, inside⟩).setWidth 64 * (v j).setWidth 64 + (state.2 position).setWidth 64)
  (t >>> 32, Function.update state.2 position (t.setWidth 32))

/-- One round of the outer loop: a row of products, then its last carry. -/
def mulRow (u : Digits m) (v : Digits n) (j : Nat) (inside : j < n) (w : Digits (n + m)) :
    Digits (n + m) :=
  let row := Nat.fold m (mulRound u v ⟨j, inside⟩) (0#64, w)
  Function.update row.2 ⟨j + m, by omega⟩ (row.1.setWidth 32)

/-- `_Knuth_4_3_1_M`. -/
def knuthM (u : Digits m) (v : Digits n) : Digits (n + m) :=
  Nat.fold n (mulRow u v) fun _ => 0#32

/-! ## The product of digits -/

theorem toNat_update (w : Digits n) (position : Fin n) (digit : BitVec 32) :
    Digits.toNat (Function.update w position digit) =
      value (2 ^ 32) (Function.update (fun i => (w i).toNat) position digit.toNat) := by
  rw [Digits.toNat]
  congr 1
  funext i
  by_cases same : i = position
  · subst i
    simp
  · simp [same]

/-- Digit times digit plus digit plus carry fits in two digits. -/
theorem sum_lt {carry : Nat} (small : carry < 2 ^ 32) (u v w : BitVec 32) :
    carry + (u.toNat * v.toNat + w.toNat) < 2 ^ 64 := by
  have product_le : u.toNat * v.toNat ≤ (2 ^ 32 - 1) * (2 ^ 32 - 1) :=
    Nat.mul_le_mul (by omega) (by omega)
  have w_lt := w.isLt
  omega

theorem mulRound_sum {carry : BitVec 64} (small : carry.toNat < 2 ^ 32) (u v w : BitVec 32) :
    (carry + (u.setWidth 64 * v.setWidth 64 + w.setWidth 64)).toNat =
      carry.toNat + (u.toNat * v.toNat + w.toNat) := by
  have fits := sum_lt small u v w
  have w_lt := w.isLt
  simp only [BitVec.toNat_add, BitVec.toNat_mul, BitVec.toNat_setWidth]
  rw [Nat.mod_eq_of_lt (a := u.toNat) (by omega), Nat.mod_eq_of_lt (a := v.toNat) (by omega),
    Nat.mod_eq_of_lt (a := w.toNat) (by omega), Nat.mod_eq_of_lt (a := u.toNat * v.toNat) (by omega),
    Nat.mod_eq_of_lt (a := u.toNat * v.toNat + w.toNat) (by omega), Nat.mod_eq_of_lt fits]

/-- The state of the inner loop after `k` rounds. -/
def rowAfter (u : Digits m) (v : Digits n) (j : Fin n) (w : Digits (n + m)) (k : Nat)
    (inside : k ≤ m) : BitVec 64 × Digits (n + m) :=
  Nat.fold k (fun i below => mulRound u v j i (below.trans_le inside)) (0#64, w)

/-- The digits after `k` rounds of the outer loop. -/
def rowsAfter (u : Digits m) (v : Digits n) (k : Nat) (inside : k ≤ n) : Digits (n + m) :=
  Nat.fold k (fun j below => mulRow u v j (below.trans_le inside)) fun _ => 0#32

/-- A round of the outer loop runs the inner loop to its end. -/
theorem rowsAfter_succ (u : Digits m) (v : Digits n) {j : Nat} (inside : j < n) :
    rowsAfter u v (j + 1) inside =
      Function.update (rowAfter u v ⟨j, inside⟩ (rowsAfter u v j inside.le) m le_rfl).2
        ⟨j + m, by omega⟩ ((rowAfter u v ⟨j, inside⟩ (rowsAfter u v j inside.le) m le_rfl).1.setWidth 32) := by
  rw [rowsAfter, Nat.fold_succ]
  rfl

/-- After `k` rounds of a row the product of the digits met so far has been added, up to the carry, and
the digits ahead are untouched. -/
structure RowInvariant (u : Digits m) (v : Digits n) (j : Fin n) (w : Digits (n + m)) (k : Nat)
    (state : BitVec 64 × Digits (n + m)) : Prop where
  /-- What the digits and the carry spell. -/
  total : state.2.toNat + state.1.toNat * (2 ^ 32) ^ (k + j.val) =
    w.toNat + (v j).toNat * (2 ^ 32) ^ j.val * below (2 ^ 32) (fun i => (u i).toNat) k
  /-- The carry is a digit. -/
  carry_lt : state.1.toNat < 2 ^ 32
  /-- Positions not reached yet. -/
  ahead : ∀ position : Fin (n + m), k + j.val ≤ position.val → state.2 position = w position

theorem RowInvariant.step {u : Digits m} {v : Digits n} {j : Fin n} {w : Digits (n + m)} {k : Nat}
    {state : BitVec 64 × Digits (n + m)} (invariant : RowInvariant u v j w k state) (inside : k < m) :
    RowInvariant u v j w (k + 1) (mulRound u v j k inside state) := by
  obtain ⟨total, carry_lt, ahead⟩ := invariant
  let position : Fin (n + m) := ⟨k + j, by omega⟩
  let t := state.1 + ((u ⟨k, inside⟩).setWidth 64 * (v j).setWidth 64 + (state.2 position).setWidth 64)
  have sum_eq : t.toNat = state.1.toNat + (u ⟨k, inside⟩).toNat * (v j).toNat +
      (state.2 position).toNat := by
    rw [mulRound_sum carry_lt, Nat.add_assoc]
  have carry_eq : (t >>> 32).toNat = t.toNat / 2 ^ 32 := by
    rw [BitVec.toNat_ushiftRight, Nat.shiftRight_eq_div_pow]
  refine ⟨?_, ?_, fun other beyond => ?_⟩
  · change Digits.toNat (Function.update state.2 position (t.setWidth 32)) +
      (t >>> 32).toNat * (2 ^ 32) ^ (k + 1 + j.val) = _
    have moved := value_update_carry (2 ^ 32) (fun i => (state.2 i).toNat) position
      (state.1.toNat + (u ⟨k, inside⟩).toNat * (v j).toNat)
    rw [← sum_eq] at moved
    rw [toNat_update, BitVec.toNat_setWidth, carry_eq, Nat.add_right_comm k, moved, below_succ _ _ inside]
    calc
      _ = state.2.toNat + state.1.toNat * (2 ^ 32) ^ (k + j.val) +
          (u ⟨k, inside⟩).toNat * (v j).toNat * (2 ^ 32) ^ (k + j.val) := by
        rw [Nat.add_mul, ← Nat.add_assoc]
        rfl
      _ = _ := by
        rw [total, Nat.pow_add]
        ring
  · change (t >>> 32).toNat < 2 ^ 32
    have := t.isLt
    omega
  · have distinct : other ≠ position := by
      intro same
      have := congrArg Fin.val same
      simp only [position] at this
      omega
    exact (Function.update_of_ne distinct _ _).trans (ahead other (by omega))

theorem rowInvariant_rowAfter (u : Digits m) (v : Digits n) (j : Fin n) (w : Digits (n + m)) {k : Nat}
    (inside : k ≤ m) : RowInvariant u v j w k (rowAfter u v j w k inside) := by
  induction k with
  | zero => exact ⟨by simp [rowAfter, below_zero], by simp [rowAfter], fun _ _ => rfl⟩
  | succ k induction =>
      rw [rowAfter, Nat.fold_succ]
      exact (induction (by omega)).step inside

/-- What the rows before `k` spell, and the digits no row has reached. -/
structure RowsInvariant (u : Digits m) (v : Digits n) (k : Nat) (w : Digits (n + m)) : Prop where
  /-- The product by the digits met so far. -/
  total : w.toNat = u.toNat * below (2 ^ 32) (fun j => (v j).toNat) k
  /-- Positions after the last carry. -/
  free : ∀ position : Fin (n + m), k + m ≤ position.val → w position = 0#32

theorem RowsInvariant.last_free {u : Digits m} {v : Digits n} {j : Nat} {w : Digits (n + m)}
    (invariant : RowsInvariant u v j w) (inside : j < n) :
    (rowAfter u v ⟨j, inside⟩ w m le_rfl).2 ⟨j + m, by omega⟩ = 0#32 := by
  have ahead := (rowInvariant_rowAfter u v ⟨j, inside⟩ w (le_refl m)).ahead
  exact (ahead _ (Nat.add_comm j m).ge).trans (invariant.free _ le_rfl)

/-- A row adds the multiple of `__u` by its digit of `__v`. -/
theorem RowsInvariant.step {u : Digits m} {v : Digits n} {j : Nat} {w : Digits (n + m)}
    (invariant : RowsInvariant u v j w) (inside : j < n) :
    RowsInvariant u v (j + 1) (mulRow u v j inside w) := by
  obtain ⟨total, carry_lt, ahead⟩ := rowInvariant_rowAfter u v ⟨j, inside⟩ w (le_refl m)
  have zero := invariant.last_free inside
  rw [below_all] at total
  change RowsInvariant u v (j + 1) (Function.update (rowAfter u v ⟨j, inside⟩ w m le_rfl).2
    ⟨j + m, by omega⟩ ((rowAfter u v ⟨j, inside⟩ w m le_rfl).1.setWidth 32))
  set row := rowAfter u v ⟨j, inside⟩ w m le_rfl with row_eq
  let last : Fin (n + m) := ⟨j + m, by omega⟩
  constructor
  · have written := value_update (2 ^ 32) (fun i => (row.2 i).toNat) last row.1.toNat
    have digit_eq : (row.1.setWidth 32).toNat = row.1.toNat := by
      rw [BitVec.toNat_setWidth, Nat.mod_eq_of_lt carry_lt]
    have grown : value (2 ^ 32) (Function.update (fun i => (row.2 i).toNat) last row.1.toNat) =
        w.toNat + (v ⟨j, inside⟩).toNat * (2 ^ 32) ^ j * u.toNat := by
      have zero' : row.2 last = 0#32 := zero
      simp only [zero', BitVec.toNat_zero, Nat.zero_mul, Nat.add_zero] at written
      rw [written, show last.val = m + j from Nat.add_comm j m]
      exact total
    rw [toNat_update, digit_eq, grown, invariant.total, below_succ _ _ inside]
    ring
  · intro position beyond
    have distinct : position ≠ last := by
      intro same
      have := congrArg Fin.val same
      simp only [last] at this
      omega
    have kept := ahead position (by simp only; omega)
    exact (Function.update_of_ne distinct _ _).trans (kept.trans (invariant.free position (by omega)))

theorem rowsInvariant_rowsAfter (u : Digits m) (v : Digits n) {k : Nat} (inside : k ≤ n) :
    RowsInvariant u v k (rowsAfter u v k inside) := by
  induction k with
  | zero =>
      exact ⟨by simp [rowsAfter, Digits.toNat, value_zero, below_zero], fun _ _ => rfl⟩
  | succ k induction =>
      rw [rowsAfter, Nat.fold_succ]
      exact (induction (by omega)).step inside

theorem knuthM_toNat (u : Digits m) (v : Digits n) : (knuthM u v).toNat = u.toNat * v.toNat := by
  have total := (rowsInvariant_rowsAfter u v le_rfl).total
  rw [below_all] at total
  exact total

/-- `_Knuth_4_3_1_M` computes the product, whatever the numbers of digits.  In every round of every row
the sum assigned to the 64-bit `__t` is exact, and the last carry of a row is a digit, written where
there was zero. -/
theorem knuthM_exact (u : Digits m) (v : Digits n) :
    (knuthM u v).toNat = u.toNat * v.toNat ∧
      ∀ j : Fin n,
        let w := rowsAfter u v j j.isLt.le
        (∀ i : Fin m,
          let state := rowAfter u v j w i i.isLt.le
          state.1.toNat + ((u i).toNat * (v j).toNat + (state.2 ⟨i + j, by omega⟩).toNat) < 2 ^ 64) ∧
        (rowAfter u v j w m le_rfl).1.toNat < 2 ^ 32 ∧
        (rowAfter u v j w m le_rfl).2 ⟨j + m, by omega⟩ = 0#32 := by
  refine ⟨knuthM_toNat u v, fun j => ⟨fun i => ?_, ?_, ?_⟩⟩
  · exact sum_lt (rowInvariant_rowAfter u v j _ i.isLt.le).carry_lt _ _ _
  · exact (rowInvariant_rowAfter u v j _ le_rfl).carry_lt
  · exact (rowsInvariant_rowsAfter u v j.isLt.le).last_free j.isLt

/-! ## Two words -/

/-- `_Base128`: the low and the high word. -/
@[ext] structure Base128 where
  /-- `_Word[0]`. -/
  low : BitVec 64
  /-- `_Word[1]`. -/
  high : BitVec 64
  deriving DecidableEq

namespace Base128

/-- The number two words spell. -/
def toNat (x : Base128) : Nat := x.low.toNat + 2 ^ 64 * x.high.toNat

/-- `static_cast<uint128_t>` of a word. -/
def ofWord (word : BitVec 64) : Base128 := ⟨word, 0#64⟩

end Base128

/-- Lower and upper half of a word. -/
def halves (word : BitVec 64) : Digits 2 := ![word.setWidth 32, (word >>> 32).setWidth 32]

/-- Two digits as a word. -/
def joined (high low : BitVec 32) : BitVec 64 := high.setWidth 64 <<< 32 ||| low.setWidth 64

/-- `_UMul128` where no instruction multiplies words: low and high word of the product. -/
def uMul128 (left right : BitVec 64) : BitVec 64 × BitVec 64 :=
  let w := knuthM (halves left) (halves right)
  (joined (w 1) (w 0), joined (w 3) (w 2))

/-- `_Multiply`. -/
def multiply (left right : Base128) : Base128 :=
  let (low, high) := uMul128 left.low right.low
  ⟨low, high + left.low * right.high + left.high * right.low⟩

/-- `_Unsigned_right_shift`. -/
def unsignedRightShift (x : Base128) (count : BitVec 8) : Base128 :=
  if count = 0#8 then x
  else if 64 ≤ count.toNat then ⟨x.high >>> (count.toNat % 64), 0#64⟩
  else ⟨x.low >>> count.toNat ||| x.high <<< (64 - count.toNat), x.high >>> count.toNat⟩

theorem toNat_halves (word : BitVec 64) : (halves word).toNat = word.toNat := by
  simp only [Digits.toNat, value, Fin.sum_univ_two, halves, Matrix.cons_val_zero, Matrix.cons_val_one,
    BitVec.toNat_setWidth, BitVec.toNat_ushiftRight, Nat.shiftRight_eq_div_pow, Fin.val_zero, Fin.val_one]
  omega

theorem toNat_or_shiftLeft {high low : BitVec 64} {count : Nat} (inside : count ≤ 64)
    (disjoint : low.toNat < 2 ^ count) :
    (low ||| high <<< count).toNat = low.toNat + 2 ^ count * (high.toNat % 2 ^ (64 - count)) := by
  have shifted : (high <<< count).toNat = 2 ^ count * (high.toNat % 2 ^ (64 - count)) := by
    rw [BitVec.toNat_shiftLeft, Nat.shiftLeft_eq, Nat.mul_comm, ← Nat.mul_mod_mul_left, ← Nat.pow_add,
      Nat.add_sub_cancel' inside]
  rw [BitVec.or_comm, BitVec.toNat_or, shifted, ← Nat.two_pow_add_eq_or_of_lt disjoint, Nat.add_comm]

theorem toNat_joined (high low : BitVec 32) :
    (joined high low).toNat = low.toNat + 2 ^ 32 * high.toNat := by
  have low_eq : (low.setWidth 64).toNat = low.toNat := by
    rw [BitVec.toNat_setWidth]
    omega
  have high_eq : (high.setWidth 64).toNat = high.toNat := by
    rw [BitVec.toNat_setWidth]
    omega
  rw [joined, BitVec.or_comm, toNat_or_shiftLeft (by decide) (by omega), low_eq, high_eq]
  omega

/-- The digit-wise product is the product of words. -/
theorem uMul128_toNat (left right : BitVec 64) :
    (uMul128 left right).1.toNat + 2 ^ 64 * (uMul128 left right).2.toNat =
      left.toNat * right.toNat := by
  have product := knuthM_toNat (halves left) (halves right)
  rw [toNat_halves, toNat_halves] at product
  rw [← product, uMul128, toNat_joined, toNat_joined, Digits.toNat, value, Fin.sum_univ_four]
  simp only [Fin.val_zero, Fin.val_one, Fin.val_two]
  change _ = _ + _ + _ + _ * (2 ^ 32) ^ 3
  omega

/-- `_Multiply` is multiplication modulo `2^128`. -/
theorem multiply_toNat (left right : Base128) :
    (multiply left right).toNat = left.toNat * right.toNat % 2 ^ 128 := by
  have product := uMul128_toNat left.low right.low
  have word_lt := (uMul128 left.low right.low).1.isLt
  have expanded : left.toNat * right.toNat = left.low.toNat * right.low.toNat +
      2 ^ 64 * (left.low.toNat * right.high.toNat + left.high.toNat * right.low.toNat) +
        2 ^ 128 * (left.high.toNat * right.high.toNat) := by
    simp only [Base128.toNat]
    ring
  rw [expanded, Nat.add_mul_mod_self_left, ← product]
  simp only [multiply, Base128.toNat, BitVec.toNat_add, BitVec.toNat_mul]
  generalize left.low.toNat * right.high.toNat = first
  generalize left.high.toNat * right.low.toNat = second
  omega

theorem unsignedRightShift_toNat (x : Base128) {count : BitVec 8} (inside : count.toNat < 128) :
    (unsignedRightShift x count).toNat = x.toNat / 2 ^ count.toNat := by
  rw [unsignedRightShift]
  split_ifs with none long
  · simp [none]
  · have word : x.toNat / 2 ^ 64 = x.high.toNat := by
      rw [Base128.toNat]
      omega
    have split : 2 ^ count.toNat = 2 ^ 64 * 2 ^ (count.toNat % 64) := by
      rw [← Nat.pow_add]
      congr 1
      omega
    rw [split, ← Nat.div_div_eq_div_mul, word]
    simp [Base128.toNat, Nat.shiftRight_eq_div_pow]
  · have split : 2 ^ 64 = 2 ^ count.toNat * 2 ^ (64 - count.toNat) := by
      rw [← Nat.pow_add]
      congr 1
      omega
    have below : x.low.toNat / 2 ^ count.toNat < 2 ^ (64 - count.toNat) := by
      apply Nat.div_lt_of_lt_mul
      rw [← split]
      exact x.low.isLt
    have shifted := BitVec.toNat_ushiftRight x.low count.toNat
    rw [Nat.shiftRight_eq_div_pow] at shifted
    rw [Base128.toNat, toNat_or_shiftLeft (by omega) (by rwa [shifted]), shifted,
      BitVec.toNat_ushiftRight, Nat.shiftRight_eq_div_pow, Base128.toNat, split,
      Nat.mul_assoc _ _ x.high.toNat, Nat.add_mul_div_left _ _ (Nat.two_pow_pos _),
      show 64 - (64 - count.toNat) = count.toNat by omega]
    have joined := Nat.mod_add_div x.high.toNat (2 ^ count.toNat)
    calc
      _ = x.low.toNat / 2 ^ count.toNat + 2 ^ (64 - count.toNat) *
          (x.high.toNat % 2 ^ count.toNat + 2 ^ count.toNat * (x.high.toNat / 2 ^ count.toNat)) := by
        ring
      _ = _ := by rw [joined]

end RobinHoodHashmap.Int128
