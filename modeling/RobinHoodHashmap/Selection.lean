import Mathlib.Data.List.FinRange
import Mathlib.Data.List.Sort
import Mathlib.Order.Fin.Basic
import Mathlib.Tactic

/-!
# Selecting positions of a finite range

Facts about the positions of a range at which a predicate holds: splitting the range in two,
taking its positions least first, and following the concatenation of per-position lists when one
position changes.
-/

namespace Selection

variable {α β : Type*}

/-! ## Ranges in two parts -/

section Split

variable {m n k : Nat} {low : Fin m → Fin k} {high : Fin n → Fin k}

theorem finRange_split (total : k = m + n) (low_val : ∀ i, (low i).val = i)
    (high_val : ∀ i, (high i).val = m + i) :
    List.finRange k = (List.finRange m).map low ++ (List.finRange n).map high := by
  apply List.ext_getElem
  · simp [total]
  · intro position inside _
    apply Fin.ext
    rw [List.getElem_append]
    split
    · simp [low_val]
    · rename_i outside
      simp only [List.length_map, List.length_finRange, not_lt] at outside
      simp [high_val, Nat.add_sub_cancel' outside]

/-- The first position of a split range is sought in the lower part and then in the upper. -/
theorem find?_split (total : k = m + n) (low_val : ∀ i, (low i).val = i)
    (high_val : ∀ i, (high i).val = m + i) (p : Fin k → Bool) :
    Fin.find? p =
      ((Fin.find? fun i => p (low i)).map low).or ((Fin.find? fun i => p (high i)).map high) := by
  have below_eq_low : ∀ j : Fin k, ∀ inside : j.val < m, j = low ⟨j, inside⟩ := by
    intro j inside
    apply Fin.ext
    simp [low_val]
  have above_eq_high : ∀ j : Fin k, ∀ outside : m ≤ j.val, j = high ⟨j - m, by omega⟩ := by
    intro j outside
    apply Fin.ext
    simp [high_val, Nat.add_sub_cancel' outside]
  cases first : Fin.find? fun i => p (low i) with
  | some i =>
      obtain ⟨chosen, least⟩ := Fin.find?_eq_some_iff.mp first
      refine Fin.find?_eq_some_iff.mpr ⟨chosen, fun j before => ?_⟩
      have inside : j.val < i.val := by
        simpa [Fin.lt_def, low_val] using before
      rw [below_eq_low j (by omega)]
      exact least ⟨j, by omega⟩ (by simpa [Fin.lt_def] using inside)
  | none =>
      have no_low := Fin.find?_eq_none_iff.mp first
      cases second : Fin.find? fun i => p (high i) with
      | some i =>
          obtain ⟨chosen, least⟩ := Fin.find?_eq_some_iff.mp second
          refine Fin.find?_eq_some_iff.mpr ⟨chosen, fun j before => ?_⟩
          by_cases inside : j.val < m
          · rw [below_eq_low j inside]
            exact no_low _
          · rw [above_eq_high j (by omega)]
            apply least
            simp only [Fin.lt_def, high_val] at before ⊢
            omega
      | none =>
          have no_high := Fin.find?_eq_none_iff.mp second
          refine Fin.find?_eq_none_iff.mpr fun j => ?_
          by_cases inside : j.val < m
          · rw [below_eq_low j inside]
            exact no_low _
          · rw [above_eq_high j (by omega)]
            exact no_high _

end Split

/-- Once the least selected position is cleared, every remaining one lies after it. -/
theorem lt_of_update_least {n : Nat} {p : Fin n → Bool} {least i : Fin n}
    (before : ∀ j < least, p j = false) (selected : Function.update p least false i = true) :
    least < i := by
  have other : i ≠ least := by
    rintro rfl
    simp at selected
  have chosen : p i = true := by
    simpa [other] using selected
  refine lt_of_le_of_ne (le_of_not_gt fun earlier => ?_) other.symm
  simp [before i earlier] at chosen

theorem filter_finRange_eq_cons {n : Nat} {p : Fin n → Bool} {least : Fin n}
    (chosen : p least = true) (before : ∀ i < least, p i = false) :
    (List.finRange n).filter p =
      least :: (List.finRange n).filter (Function.update p least false) := by
  apply List.Pairwise.eq_of_mem_iff (r := (· < ·))
  · exact (List.pairwise_lt_finRange n).filter _
  · refine List.pairwise_cons.mpr ⟨?_, (List.pairwise_lt_finRange n).filter _⟩
    intro i selected
    exact lt_of_update_least before (List.mem_filter.mp selected).2
  · intro i
    by_cases same : i = least
    · subst i
      simp [chosen]
    · simp [same]

/-! ## Concatenation over positions -/

/-- Changing the list at one position changes the concatenation by the same entries. -/
theorem flatMap_update_perm {positions : List α} (nodup : positions.Nodup) {target : α}
    (member : target ∈ positions) {f g : α → List β} (extra : List β)
    (same : ∀ position ∈ positions, position ≠ target → g position = f position)
    (changed : (g target).Perm (extra ++ f target)) :
    (positions.flatMap g).Perm (extra ++ positions.flatMap f) := by
  obtain ⟨front, back, rfl⟩ := List.append_of_mem member
  rw [List.nodup_middle, List.nodup_cons] at nodup
  have front_eq : front.flatMap g = front.flatMap f := by
    apply List.flatMap_congr
    intro position inside
    refine same position (List.mem_append_left _ inside) ?_
    rintro rfl
    exact nodup.1 (List.mem_append_left _ inside)
  have back_eq : back.flatMap g = back.flatMap f := by
    apply List.flatMap_congr
    intro position inside
    refine same position (List.mem_append_right _ (List.mem_cons_of_mem _ inside)) ?_
    rintro rfl
    exact nodup.1 (List.mem_append_right _ inside)
  simp only [List.flatMap_append, List.flatMap_cons, front_eq, back_eq]
  calc
    (front.flatMap f ++ (g target ++ back.flatMap f)).Perm
        (front.flatMap f ++ (extra ++ f target ++ back.flatMap f)) :=
      (changed.append_right _).append_left _
    _ = front.flatMap f ++ (extra ++ (f target ++ back.flatMap f)) := by
      rw [List.append_assoc]
    List.Perm _ (extra ++ (front.flatMap f ++ (f target ++ back.flatMap f))) := by
      simp only [← List.append_assoc]
      exact (List.perm_append_comm.append_right _).append_right _

theorem flatMap_set_perm {items : List α} {position : Nat} {old new : α}
    (item : items[position]? = some old) {f : α → List β} (extra : List β)
    (changed : (f new).Perm (extra ++ f old)) :
    ((items.set position new).flatMap f).Perm (extra ++ items.flatMap f) := by
  obtain ⟨inside, item_eq⟩ := List.getElem?_eq_some_iff.mp item
  have split : items = items.take position ++ old :: items.drop (position + 1) := by
    rw [← item_eq, List.getElem_cons_drop, List.take_append_drop]
  have flat : items.flatMap f =
      (items.take position).flatMap f ++ (f old ++ (items.drop (position + 1)).flatMap f) := by
    conv_lhs => rw [split]
    simp
  rw [List.set_eq_take_append_cons_drop, if_pos inside, List.flatMap_append, List.flatMap_cons,
    flat]
  calc
    ((items.take position).flatMap f ++ (f new ++ (items.drop (position + 1)).flatMap f)).Perm
        ((items.take position).flatMap f ++
          (extra ++ f old ++ (items.drop (position + 1)).flatMap f)) :=
      (changed.append_right _).append_left _
    List.Perm _ (extra ++ ((items.take position).flatMap f ++
        (f old ++ (items.drop (position + 1)).flatMap f))) := by
      simp only [← List.append_assoc]
      exact (List.perm_append_comm.append_right _).append_right _

theorem flatMap_eq_of_single {items : List α} {position : Nat} {item : α}
    (item_eq : items[position]? = some item) {f : α → List β}
    (others : ∀ other value, other ≠ position → items[other]? = some value → f value = []) :
    items.flatMap f = f item := by
  obtain ⟨inside, get_eq⟩ := List.getElem?_eq_some_iff.mp item_eq
  have split : items = items.take position ++ item :: items.drop (position + 1) := by
    rw [← get_eq, List.getElem_cons_drop, List.take_append_drop]
  have front : (items.take position).flatMap f = [] := by
    rw [List.flatMap_eq_nil_iff]
    intro value member
    obtain ⟨other, other_eq⟩ := List.mem_iff_getElem?.mp member
    rw [List.getElem?_take] at other_eq
    split_ifs at other_eq with before
    exact others other value (Nat.ne_of_lt before) other_eq
  have back : (items.drop (position + 1)).flatMap f = [] := by
    rw [List.flatMap_eq_nil_iff]
    intro value member
    obtain ⟨other, other_eq⟩ := List.mem_iff_getElem?.mp member
    rw [List.getElem?_drop] at other_eq
    exact others _ value (by omega) other_eq
  conv_lhs => rw [split]
  simp [front, back]

/-- Grouping a list by a bounded label rearranges it. -/
theorem flatMap_filter_perm (label : β → Nat) {n : Nat} (items : List β)
    (inside : ∀ item ∈ items, label item < n) :
    ((List.range n).flatMap fun d => items.filter fun item => label item = d).Perm items := by
  induction items with
  | nil => simp
  | cons item items induction =>
      have rest := induction fun other member => inside other (List.mem_cons_of_mem _ member)
      refine List.Perm.trans (flatMap_update_perm List.nodup_range
        (List.mem_range.mpr (inside item List.mem_cons_self)) [item] ?_ ?_)
        (rest.cons item)
      · intro d _ other
        simp [Ne.symm other]
      · simp

theorem flatMap_range_getElem? (items : List β) (n : Nat) :
    ((List.range n).flatMap fun i => items[i]?.toList) = items.take n := by
  induction n with
  | zero => simp
  | succ n induction =>
      rw [List.range_succ, List.flatMap_append, induction, List.take_add_one]
      simp

theorem flatMap_finRange_getElem? (items : List β) {n : Nat} (fits : items.length ≤ n) :
    ((List.finRange n).flatMap fun i => items[i.val]?.toList) = items := by
  have values : (List.finRange n).map Fin.val = List.range n := by simp
  calc
    ((List.finRange n).flatMap fun i => items[i.val]?.toList) =
        ((List.finRange n).map Fin.val).flatMap fun i => items[i]?.toList := by
      rw [List.flatMap_map]
    _ = items := by rw [values, flatMap_range_getElem?, List.take_of_length_le fits]

theorem map_filter_eq_flatMap (p : α → Bool) (f : α → β) (positions : List α) :
    (positions.filter p).map f = positions.flatMap fun i => if p i then [f i] else [] := by
  induction positions with
  | nil => rfl
  | cons position positions induction =>
      cases chosen : p position <;> simp [chosen, induction]

/-! ## Stopping at the first hit -/

/-- A list up to its first hit, that hit included. -/
def upTo (hit : α → Bool) : List α → List α
  | [] => []
  | item :: items => if hit item then [item] else item :: upTo hit items

theorem upTo_sublist (hit : α → Bool) (items : List α) : (upTo hit items).Sublist items := by
  induction items with
  | nil => exact List.Sublist.slnil
  | cons item items induction =>
      rw [upTo]
      split
      · exact (List.nil_sublist items).cons_cons item
      · exact induction.cons_cons item

theorem upTo_of_no_hit {hit : α → Bool} {items : List α} (misses : ∀ item ∈ items, hit item = false) :
    upTo hit items = items := by
  induction items with
  | nil => rfl
  | cons item items induction =>
      obtain ⟨miss, rest⟩ := List.forall_mem_cons.mp misses
      simp [upTo, miss, induction rest]

theorem upTo_append_of_no_hit {hit : α → Bool} {front : List α}
    (misses : ∀ item ∈ front, hit item = false) (back : List α) :
    upTo hit (front ++ back) = front ++ upTo hit back := by
  induction front with
  | nil => rfl
  | cons item front induction =>
      obtain ⟨miss, rest⟩ := List.forall_mem_cons.mp misses
      simp [upTo, miss, induction rest]

theorem upTo_append_of_hit {hit : α → Bool} {front : List α} {item : α} (member : item ∈ front)
    (found : hit item = true) (back : List α) : upTo hit (front ++ back) = upTo hit front := by
  induction front with
  | nil => exact (List.not_mem_nil member).elim
  | cons first front induction =>
      cases first_hit : hit first with
      | true => simp [upTo, first_hit]
      | false =>
          have later : item ∈ front := by
            refine (List.mem_cons.mp member).resolve_left ?_
            rintro rfl
            simp [first_hit] at found
          simp [upTo, first_hit, induction later]

/-! ## Lists related item by item -/

section Related

variable {α β : Type*} {relation : α → β → Prop} {lefts : List α} {rights : List β}

theorem forall₂_getElem? (related : List.Forall₂ relation lefts rights) {nth : Nat} {left : α}
    (left_eq : lefts[nth]? = some left) : ∃ right, rights[nth]? = some right ∧ relation left right := by
  induction related generalizing nth with
  | nil => simp at left_eq
  | @cons first second _ _ head _ induction =>
      cases nth with
      | zero =>
          obtain rfl : first = left := by
            simpa using left_eq
          exact ⟨second, rfl, head⟩
      | succ nth => exact induction left_eq

theorem forall₂_set (related : List.Forall₂ relation lefts rights) (nth : Nat) {left : α} {right : β}
    (new : relation left right) : List.Forall₂ relation (lefts.set nth left) (rights.set nth right) := by
  induction related generalizing nth with
  | nil => exact List.Forall₂.nil
  | cons head tail induction =>
      cases nth with
      | zero => exact List.Forall₂.cons new tail
      | succ nth => exact List.Forall₂.cons head (induction nth)

theorem forall₂_replicate (count : Nat) {left : α} {right : β} (same : relation left right) :
    List.Forall₂ relation (List.replicate count left) (List.replicate count right) := by
  induction count with
  | zero => exact List.Forall₂.nil
  | succ count induction => exact List.Forall₂.cons same induction

end Related

end Selection
