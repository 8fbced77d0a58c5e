import RobinHoodHashmap.Rehash

/-!
# The call depth suffices

`insert`, `_resize` and `_insert_new` nest once per doubling, and a capacity doubled thirty-two
times is zero, where `_resize` stops at the shift by `log2(0)`.  So no execution, from whatever
table, runs out of the call depth the model gives it.
-/

namespace RobinHoodHashmap

open Hashmap

variable {κ υ : Type}

/-- The capacity is zero after `n` more doublings. -/
def ZeroAfter (n : Nat) (s : Hashmap κ υ) : Prop := s.capacity <<< n = 0#32

theorem zeroAfter_thirtyTwo (s : Hashmap κ υ) : ZeroAfter 32 s := by
  apply BitVec.eq_of_toNat_eq
  rw [BitVec.toNat_shiftLeft, Nat.shiftLeft_eq, Nat.mul_mod_left]
  rfl

theorem ZeroAfter.succ {n : Nat} {s : Hashmap κ υ} (zero : ZeroAfter n s) : ZeroAfter (n + 1) s := by
  rw [ZeroAfter, BitVec.shiftLeft_add, zero]
  simp

theorem zeroAfter_doubled (T : Traits κ υ) {n : Nat} {s : Hashmap κ υ} (zero : ZeroAfter (n + 1) s) :
    ZeroAfter n (doubled T s) := by
  rw [ZeroAfter, Nat.add_comm, BitVec.shiftLeft_add] at zero
  exact zero

section Avoids

variable [BEq κ] {T : Traits κ υ} {s : Hashmap κ υ} {depth n : Nat}

theorem insertWithin_avoids (zero : ZeroAfter n s) (key : κ) (value : υ)
    (grown : Execution.Avoids .outOfFuel (ZeroAfter n)
      (resizeWithin T depth s >>= fun s => insertNewWithin T depth s key value)) :
    Execution.Avoids .outOfFuel (ZeroAfter n) (insertWithin T (depth + 1) s key value) := by
  rcases insertWithin_cases T s depth key value with stopped | ⟨_, _, -, -, assigned⟩ |
    ⟨_, _, -, -, -, placed⟩ | ⟨_, -, -, -, grows⟩
  · rw [stopped]
    exact Execution.Avoids.fault (by decide)
  · rw [assigned]
    exact Execution.Avoids.pure zero
  · rw [placed]
    exact Execution.Avoids.pure zero
  · rw [grows]
    exact grown

theorem insertNewWithin_avoids (zero : ZeroAfter n s) (key : κ) (value : υ)
    (grown : Execution.Avoids .outOfFuel (ZeroAfter n)
      (resizeWithin T depth s >>= fun s => insertWithin T depth s key value)) :
    Execution.Avoids .outOfFuel (ZeroAfter n) (insertNewWithin T (depth + 1) s key value) := by
  rcases insertNewWithin_cases T s depth key value with stopped | ⟨_, _, -, -, placed⟩ |
    ⟨_, -, -, grows⟩
  · rw [stopped]
    exact Execution.Avoids.fault (by decide)
  · rw [placed]
    exact Execution.Avoids.pure zero
  · rw [grows]
    exact grown

/-- `_resize` nests one level deeper, in tables closer to capacity zero. -/
theorem resizeWithin_avoids (zero : ZeroAfter (n + 1) s)
    (nested : ∀ (s : Hashmap κ υ) key value, ZeroAfter n s →
      Execution.Avoids .outOfFuel (ZeroAfter n) (insertNewWithin T depth s key value)) :
    Execution.Avoids .outOfFuel (ZeroAfter n) (resizeWithin T (depth + 1) s) := by
  rw [resizeWithin]
  have logged : (Execution.emit s.capacity : Exec PUnit).Avoids .outOfFuel fun _ => True := trivial
  refine logged.bind fun _ _ => ?_
  split_ifs with small
  · rw [foldlM_rehashBlock]
    refine Execution.Avoids.bind (Execution.Avoids.foldlM (fun table pair kept =>
      nested table pair.key pair.value kept) s.livePairs (zeroAfter_doubled T zero)) ?_
    intro filled kept
    exact Execution.Avoids.pure kept
  · exact Execution.Avoids.fault (by decide)

/-- Two levels of depth per doubling are enough.  The induction is on the number of doublings left
and carries both entry points. -/
theorem within_avoids (T : Traits κ υ) (n : Nat) :
    ∀ depth (s : Hashmap κ υ) key value, ZeroAfter (n + 1) s →
      Execution.Avoids .outOfFuel (ZeroAfter (n + 1))
          (insertWithin T (depth + 2 * n + 2) s key value) ∧
        Execution.Avoids .outOfFuel (ZeroAfter (n + 1))
          (insertNewWithin T (depth + 2 * n + 2) s key value) := by
  induction n with
  | zero =>
      intro depth s key value zero
      have stops : Execution.Avoids .outOfFuel (fun _ => False) (resizeWithin T (depth + 1) s) := by
        rw [resizeWithin_of_zero zero]
        exact fun same => nomatch same
      constructor
      · exact insertWithin_avoids zero key value (stops.bind fun _ impossible => impossible.elim)
      · exact insertNewWithin_avoids zero key value (stops.bind fun _ impossible => impossible.elim)
  | succ n induction =>
      intro depth s key value zero
      have resized : Execution.Avoids .outOfFuel (ZeroAfter (n + 1))
          (resizeWithin T (depth + 2 * n + 2 + 1) s) :=
        resizeWithin_avoids zero fun table key value kept => (induction depth table key value kept).2
      have deeper : depth + 2 * (n + 1) + 1 = depth + 1 + 2 * n + 2 := by omega
      constructor
      · refine insertWithin_avoids zero key value (resized.bind fun table kept => ?_)
        rw [deeper]
        exact ((induction (depth + 1) table key value kept).2).weaken fun _ => ZeroAfter.succ
      · refine insertNewWithin_avoids zero key value (resized.bind fun table kept => ?_)
        rw [deeper]
        exact ((induction (depth + 1) table key value kept).1).weaken fun _ => ZeroAfter.succ

end Avoids

/-- The three mutually recursive functions never run out of call depth. -/
theorem callDepth_suffices [BEq κ] (T : Traits κ υ) (s : Hashmap κ υ) (key : κ) (value : υ) :
    (insert T s key value).Avoids .outOfFuel (ZeroAfter 32) ∧
      (insertNew T s key value).Avoids .outOfFuel (ZeroAfter 32) ∧
      (resize T s).Avoids .outOfFuel (ZeroAfter 31) := by
  have entry := within_avoids T 31 0 s key value (zeroAfter_thirtyTwo s)
  have resized : Execution.Avoids .outOfFuel (ZeroAfter 31) (resizeWithin T (63 + 1) s) :=
    resizeWithin_avoids (zeroAfter_thirtyTwo s) fun table key value kept =>
      (within_avoids T 30 1 table key value kept).2
  exact ⟨entry.1, entry.2, resized⟩

end RobinHoodHashmap
