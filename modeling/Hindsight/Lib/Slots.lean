import Mathlib

/-!
# Tables of slots

A table is a list of slots each of which is free or holds an element. An element goes into the first free
slot, and into a new slot at the end when there is none.

* `occupied`: how many slots hold an element, and what filling and clearing one does to it.
* `firstFree`, `grown`: the slot for the next element, and the table that has it.
* `firstWith`: the first element that passes a test, and its slot.
-/

namespace Slots

variable {α : Type*}

def occupied (xs : List (Option α)) : Nat := xs.countP Option.isSome

/-- The slot for the next element. -/
def firstFree (xs : List (Option α)) : Nat := xs.findIdx Option.isNone

/-- The table with a free slot for the next element. -/
def grown (xs : List (Option α)) : List (Option α) :=
  if firstFree xs < xs.length then xs else xs ++ [none]

def firstWith (test : α → Bool) : List (Option α) → Option (Nat × α)
  | [] => none
  | none :: xs => (firstWith test xs).map fun r => (r.1 + 1, r.2)
  | some a :: xs => if test a then some (0, a) else (firstWith test xs).map fun r => (r.1 + 1, r.2)

variable {xs : List (Option α)} {i : Nat} {a b : α} {test : α → Bool}

theorem occupied_fill (h : xs[i]? = some none) : occupied (xs.set i (some a)) = occupied xs + 1 := by
  obtain ⟨hlt, hi⟩ := List.getElem?_eq_some_iff.mp h
  rw [occupied, List.countP_set hlt, hi]
  rfl

theorem occupied_clear (h : xs[i]? = some (some a)) : occupied (xs.set i none) + 1 = occupied xs := by
  obtain ⟨hlt, hi⟩ := List.getElem?_eq_some_iff.mp h
  have hpos : 0 < xs.countP Option.isSome :=
    List.countP_pos_iff.mpr ⟨some a, List.mem_of_getElem? h, rfl⟩
  rw [occupied, List.countP_set hlt, hi, occupied]
  exact Nat.succ_pred_eq_of_pos hpos

theorem occupied_replace (h : xs[i]? = some (some a)) : occupied (xs.set i (some b)) = occupied xs := by
  obtain ⟨hlt, hi⟩ := List.getElem?_eq_some_iff.mp h
  have hpos : 0 < xs.countP Option.isSome :=
    List.countP_pos_iff.mpr ⟨some a, List.mem_of_getElem? h, rfl⟩
  rw [occupied, List.countP_set hlt, hi, occupied]
  exact Nat.sub_add_cancel hpos

theorem getElem?_fill (h : xs[i]? = some none) {j : Nat} :
    (xs.set i (some a))[j]? = some (some b) ↔ j = i ∧ b = a ∨ xs[j]? = some (some b) := by
  obtain ⟨hlt, -⟩ := List.getElem?_eq_some_iff.mp h
  by_cases hj : i = j
  · subst hj
    rw [List.getElem?_set_self hlt, h]
    simp [eq_comm]
  · rw [List.getElem?_set_ne hj]
    simp [Ne.symm hj]

theorem getElem?_clear {j : Nat} :
    (xs.set i none)[j]? = some (some b) ↔ j ≠ i ∧ xs[j]? = some (some b) := by
  by_cases hj : i = j
  · subst hj
    simp [List.getElem?_set]
  · rw [List.getElem?_set_ne hj]
    simp [Ne.symm hj]

/-- Growing adds no element. -/
theorem getElem?_grown {j : Nat} : (grown xs)[j]? = some (some b) ↔ xs[j]? = some (some b) := by
  unfold grown
  split
  · exact Iff.rfl
  · by_cases hj : j < xs.length
    · rw [List.getElem?_append_left hj]
    · rw [List.getElem?_append_right (not_lt.mp hj), List.getElem?_eq_none (not_lt.mp hj)]
      cases j - xs.length with
      | zero => simp
      | succ k => simp

theorem occupied_grown : occupied (grown xs) = occupied xs := by
  unfold grown occupied
  split
  · rfl
  · simp

/-- The slot for the next element is free. -/
theorem getElem?_firstFree : (grown xs)[firstFree xs]? = some none := by
  unfold grown
  split
  · rename_i h
    have hnone : xs[firstFree xs].isNone = true := List.findIdx_getElem (w := h)
    rw [List.getElem?_eq_getElem h, Option.isNone_iff_eq_none.mp hnone]
  · rename_i h
    have hend : firstFree xs = xs.length := le_antisymm List.findIdx_le_length (not_lt.mp h)
    rw [hend, List.getElem?_append_right le_rfl, Nat.sub_self]
    rfl

theorem firstWith_some {r : Nat × α} (h : firstWith test xs = some r) :
    xs[r.1]? = some (some r.2) ∧ test r.2 = true := by
  induction xs generalizing r with
  | nil => cases h
  | cons x xs ih =>
    cases x with
    | none =>
      obtain ⟨q, hq, rfl⟩ := Option.map_eq_some_iff.mp h
      exact ih hq
    | some b =>
      rw [firstWith] at h
      split at h
      · rename_i htest
        cases h
        exact ⟨rfl, htest⟩
      · obtain ⟨q, hq, rfl⟩ := Option.map_eq_some_iff.mp h
        exact ih hq

theorem firstWith_none (h : firstWith test xs = none) (hi : xs[i]? = some (some a)) : test a = false := by
  induction xs generalizing i with
  | nil => cases hi
  | cons x xs ih =>
    cases x with
    | none =>
      cases i with
      | zero => cases hi
      | succ i => exact ih (Option.map_eq_none_iff.mp h) hi
    | some b =>
      rw [firstWith] at h
      split at h
      · cases h
      · rename_i htest
        cases i with
        | zero =>
          cases hi
          exact Bool.eq_false_iff.mpr htest
        | succ i => exact ih (Option.map_eq_none_iff.mp h) hi

end Slots
