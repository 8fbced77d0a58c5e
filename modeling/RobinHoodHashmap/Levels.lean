import Mathlib.Data.Finset.Card
import Mathlib.Order.Bounds.Basic
import Mathlib.Tactic

/-!
# Levels of a refining partition

A family of partitions of the keys, indexed by level, in which every level refines the one
before.  A set of keys fits at a level when no part holds more than a bound of them.  Adding keys
one at a time moves the least fitting level by exactly the levels at which the new key is still
crowded, so the level reached depends on the set of keys only.
-/

namespace Levels

variable {κ β : Type*}

/-- Keys in one part of a level are in one part of the level before. -/
def Refining (part : Nat → κ → β) : Prop :=
  ∀ level a b, part (level + 1) a = part (level + 1) b → part level a = part level b

theorem Refining.of_le {part : Nat → κ → β} (refining : Refining part) {low high : Nat}
    (le : low ≤ high) {a b : κ} (same : part high a = part high b) : part low a = part low b := by
  induction le with
  | refl => exact same
  | step _ induction => exact induction (refining _ a b same)

variable [DecidableEq β]

/-- No part of the level holds more than `bound` of the keys. -/
def Fits (part : Nat → κ → β) (bound : Nat) (keys : Finset κ) (level : Nat) : Prop :=
  ∀ p, (keys.filter fun other => part level other = p).card ≤ bound

/-- Number of keys in the part of a given key. -/
def crowd (part : Nat → κ → β) (keys : Finset κ) (key : κ) (level : Nat) : Nat :=
  (keys.filter fun other => part level other = part level key).card

variable {part : Nat → κ → β} {bound : Nat} {keys : Finset κ}

@[simp] theorem fits_empty (level : Nat) : Fits part bound ∅ level := by
  intro p
  simp

theorem Fits.of_le (refining : Refining part) {low high : Nat} (le : low ≤ high)
    (fits : Fits part bound keys low) : Fits part bound keys high := by
  intro p
  by_cases empty : (keys.filter fun other => part high other = p) = ∅
  · simp [empty]
  · obtain ⟨witness, member⟩ := Finset.nonempty_of_ne_empty empty
    obtain ⟨-, witness_part⟩ := Finset.mem_filter.mp member
    refine (Finset.card_le_card fun other other_member => ?_).trans (fits (part low witness))
    obtain ⟨inside, other_part⟩ := Finset.mem_filter.mp other_member
    exact Finset.mem_filter.mpr
      ⟨inside, refining.of_le le (other_part.trans witness_part.symm)⟩

theorem fits_cons_iff {key : κ} (fresh : key ∉ keys) (level : Nat) :
    Fits part bound (Finset.cons key keys fresh) level ↔
      Fits part bound keys level ∧ crowd part keys key level < bound := by
  constructor
  · intro fits
    constructor
    · intro p
      refine (Finset.card_le_card ?_).trans (fits p)
      exact Finset.filter_subset_filter _ (Finset.subset_cons fresh)
    · have own := fits (part level key)
      rw [Finset.filter_cons, if_pos rfl, Finset.card_cons] at own
      exact own
  · rintro ⟨fits, room⟩ p
    by_cases own : part level key = p
    · subst p
      rw [Finset.filter_cons, if_pos rfl, Finset.card_cons]
      exact room
    · rw [Finset.filter_cons, if_neg own]
      exact fits p

/-- Adding a key moves the least fitting level by the least number of further levels at which
its part has room. -/
theorem isLeast_fits_cons (refining : Refining part) {key : κ} (fresh : key ∉ keys)
    {low more : Nat} (least : IsLeast {level | Fits part bound keys level} low)
    (least_more : IsLeast {more | crowd part keys key (low + more) < bound} more) :
    IsLeast {level | Fits part bound (Finset.cons key keys fresh) level} (low + more) := by
  constructor
  · exact (fits_cons_iff fresh _).mpr
      ⟨least.1.of_le refining (Nat.le_add_right low more), least_more.1⟩
  · intro level fits
    obtain ⟨others, room⟩ := (fits_cons_iff fresh level).mp fits
    have low_le : low ≤ level := least.2 others
    have more_le : more ≤ level - low := by
      apply least_more.2
      simpa [Nat.add_sub_cancel' low_le] using room
    omega

/-! ## Several sets -/

theorem Fits.subset {fewer : Finset κ} (subset : fewer ⊆ keys) {level : Nat}
    (fits : Fits part bound keys level) : Fits part bound fewer level :=
  fun p => (Finset.card_le_card (Finset.filter_subset_filter _ subset)).trans (fits p)

theorem fits_toFinset [DecidableEq κ] {keys : List κ} {level : Nat}
    (room : ∀ p ∈ keys.map (part level), (keys.map (part level)).count p ≤ bound) :
    Fits part bound keys.toFinset level := by
  intro p
  calc
    _ = ((keys.filter fun other => part level other = p).toFinset).card := by
      rw [List.toFinset_filter]
      simp
    _ ≤ (keys.filter fun other => part level other = p).length := List.toFinset_card_le _
    _ = (keys.map (part level)).count p := by
      rw [List.count, List.countP_map, List.countP_eq_length_filter]
      rfl
    _ ≤ bound := by
      by_cases named : p ∈ keys.map (part level)
      · exact room p named
      · rw [List.count_eq_zero_of_not_mem named]
        exact Nat.zero_le bound

/-- Levels at which each of several sets of keys fits. -/
def FitsAll (part : Nat → κ → β) (bound : Nat) (seen : Set (Finset κ)) : Set Nat :=
  {level | ∀ keys ∈ seen, Fits part bound keys level}

variable {seen : Set (Finset κ)}

/-- A subset of a set already seen demands nothing new. -/
theorem fitsAll_insert_of_subset {fewer : Finset κ} (current : keys ∈ seen) (subset : fewer ⊆ keys) :
    FitsAll part bound (insert fewer seen) = FitsAll part bound seen := by
  ext level
  constructor
  · intro all keys' member
    exact all keys' (Set.mem_insert_of_mem fewer member)
  · rintro all keys' (rfl | member)
    · exact (all keys current).subset subset
    · exact all keys' member

/-- A set with one key more than a set already seen moves the least level at which all of them fit by
the least number of further levels at which the part of the new key has room. -/
theorem isLeast_fitsAll_insert (refining : Refining part) (current : keys ∈ seen) {key : κ}
    (fresh : key ∉ keys) {low more : Nat} (least : IsLeast (FitsAll part bound seen) low)
    (least_more : IsLeast {more | crowd part keys key (low + more) < bound} more) :
    IsLeast (FitsAll part bound (insert (Finset.cons key keys fresh) seen)) (low + more) := by
  have still_fits : ∀ keys' ∈ seen, Fits part bound keys' (low + more) := fun keys' member =>
    (least.1 keys' member).of_le refining (Nat.le_add_right low more)
  constructor
  · rintro keys' (rfl | member)
    · exact (fits_cons_iff fresh _).mpr ⟨still_fits keys current, least_more.1⟩
    · exact still_fits keys' member
  · intro level all
    obtain ⟨-, room⟩ := (fits_cons_iff fresh level).mp (all _ (Set.mem_insert _ _))
    have low_le : low ≤ level :=
      least.2 fun keys' member => all keys' (Set.mem_insert_of_mem _ member)
    have more_le : more ≤ level - low := by
      apply least_more.2
      simpa [Nat.add_sub_cancel' low_le] using room
    omega

end Levels
