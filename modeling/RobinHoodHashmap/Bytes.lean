import Mathlib

/-!
# Byte buffers

Overwriting a range of a buffer and reading a range of it.  A write is read back where it was made
and leaves every range apart from it alone.
-/

namespace Bytes

variable {α : Type*}

/-- The buffer after its elements from `offset` on have been overwritten. -/
def writeAt (buffer : List α) (offset : Nat) (new : List α) : List α :=
  buffer.take offset ++ new ++ buffer.drop (offset + new.length)

/-- Two ranges, given by offset and length, without a common element. -/
def Apart (offset length offset' length' : Nat) : Prop :=
  offset + length ≤ offset' ∨ offset' + length' ≤ offset

theorem Apart.symm {offset length offset' length' : Nat} (apart : Apart offset length offset' length') :
    Apart offset' length' offset length :=
  Or.symm apart

/-- A part of a range is apart from what the range is apart from. -/
theorem Apart.part {offset length offset' length' start size : Nat}
    (apart : Apart offset length offset' length') (lower : offset ≤ start)
    (upper : start + size ≤ offset + length) : Apart start size offset' length' := by
  rcases apart with before | after
  · exact Or.inl (by omega)
  · exact Or.inr (by omega)

theorem Apart.disjoint {offset length offset' length' : Nat}
    (apart : Apart offset length offset' length') :
    Disjoint (Set.Ico offset (offset + length)) (Set.Ico offset' (offset' + length')) := by
  rw [Set.disjoint_left]
  intro position inside inside'
  simp only [Set.mem_Ico] at inside inside'
  rcases apart with before | after
  · omega
  · omega

theorem apart_of_block_ne {stride nth nth' offset length offset' length' : Nat} (distinct : nth ≠ nth')
    (inside : offset + length ≤ stride) (inside' : offset' + length' ≤ stride) :
    Apart (nth * stride + offset) length (nth' * stride + offset') length' := by
  rcases Nat.lt_or_gt_of_ne distinct with before | after
  · have stride_le : (nth + 1) * stride ≤ nth' * stride := Nat.mul_le_mul_right _ before
    rw [Nat.succ_mul] at stride_le
    exact Or.inl (by omega)
  · have stride_le : (nth' + 1) * stride ≤ nth * stride := Nat.mul_le_mul_right _ after
    rw [Nat.succ_mul] at stride_le
    exact Or.inr (by omega)

variable {buffer new : List α} {offset : Nat}

theorem writeAt_append {rest : List α} (fits : offset + new.length ≤ buffer.length) :
    writeAt (buffer ++ rest) offset new = writeAt buffer offset new ++ rest := by
  rw [writeAt, writeAt, List.take_append_of_le_length (by omega), List.drop_append_of_le_length fits,
    List.append_assoc (buffer.take offset ++ new)]

theorem length_writeAt (fits : offset + new.length ≤ buffer.length) :
    (writeAt buffer offset new).length = buffer.length := by
  simp only [writeAt, List.length_append, List.length_take, List.length_drop]
  omega

theorem getElem?_writeAt_inside (fits : offset + new.length ≤ buffer.length) {nth : Nat}
    (inside : nth < new.length) : (writeAt buffer offset new)[offset + nth]? = new[nth]? := by
  have taken : (buffer.take offset).length = offset := by
    rw [List.length_take, Nat.min_eq_left (by omega)]
  rw [writeAt, List.append_assoc, List.getElem?_append_right (by omega), taken,
    Nat.add_sub_cancel_left, List.getElem?_append_left inside]

theorem getElem?_writeAt_outside (fits : offset + new.length ≤ buffer.length) {position : Nat}
    (outside : position < offset ∨ offset + new.length ≤ position) :
    (writeAt buffer offset new)[position]? = buffer[position]? := by
  have taken : (buffer.take offset).length = offset := by
    rw [List.length_take, Nat.min_eq_left (by omega)]
  rcases outside with before | after
  · rw [writeAt, List.append_assoc, List.getElem?_append_left (by omega),
      List.getElem?_take_of_lt before]
  · rw [writeAt, List.getElem?_append_right (by simp only [List.length_append]; omega),
      List.length_append, taken, List.getElem?_drop]
    congr 1
    omega

/-- A range around the written one is the old range with the same write inside. -/
theorem take_drop_writeAt {start length : Nat} (inside : start + new.length ≤ length)
    (fits : offset + length ≤ buffer.length) :
    ((writeAt buffer (offset + start) new).drop offset).take length =
      writeAt ((buffer.drop offset).take length) start new := by
  have whole : ((buffer.drop offset).take length).length = length := by
    rw [List.length_take, List.length_drop]
    omega
  have fits' : start + new.length ≤ ((buffer.drop offset).take length).length := by
    rwa [whole]
  have fits_buffer : offset + start + new.length ≤ buffer.length := by omega
  apply List.ext_getElem?
  intro nth
  by_cases within : nth < length
  · rw [List.getElem?_take_of_lt within, List.getElem?_drop]
    by_cases written : start ≤ nth ∧ nth < start + new.length
    · obtain ⟨later, rfl⟩ := Nat.exists_eq_add_of_le written.1
      have inside_new : later < new.length := by omega
      rw [getElem?_writeAt_inside fits' inside_new, ← Nat.add_assoc,
        getElem?_writeAt_inside fits_buffer inside_new]
    · have outside : nth < start ∨ start + new.length ≤ nth := by omega
      rw [getElem?_writeAt_outside fits' outside, getElem?_writeAt_outside fits_buffer (by omega),
        List.getElem?_take_of_lt within, List.getElem?_drop]
  · rw [List.getElem?_eq_none_iff.mpr (by simp only [List.length_take]; omega),
      List.getElem?_eq_none_iff.mpr (by rw [length_writeAt fits', whole]; omega)]

end Bytes
