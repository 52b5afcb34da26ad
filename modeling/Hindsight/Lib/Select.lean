import Mathlib

/-!
# Searches for a least or a greatest element

A loop that starts at a sentinel and replaces what it has by every element of a list that is less, or
greater, and has a property.

* `isLeast_least`, `isGreatest_greatest`: what the loop ends with, unless it is the sentinel.
* `isLeast_iff_of_subset`: the least element of a set is that of a part of it exactly when the part
  reaches down as far.
-/

namespace Select

variable {α : Type*}

section Loops

variable [LinearOrder α] (p : α → Prop) [dec : DecidablePred p]

def least (m : α) (xs : List α) : α := xs.foldl (fun m x => if p x ∧ x < m then x else m) m

def greatest (m : α) (xs : List α) : α := xs.foldl (fun m x => if p x ∧ m < x then x else m) m

variable {p} {m : α} {xs : List α}

theorem least_spec :
    least p m xs ≤ m ∧ (least p m xs = m ∨ least p m xs ∈ xs ∧ p (least p m xs)) ∧
      ∀ x ∈ xs, p x → least p m xs ≤ x := by
  induction xs generalizing m with
  | nil => exact ⟨le_rfl, .inl rfl, fun x hx => absurd hx List.not_mem_nil⟩
  | cons x xs ih =>
    have hcons : least p m (x :: xs) = least p (if p x ∧ x < m then x else m) xs := rfl
    rw [hcons, List.forall_mem_cons]
    by_cases h : p x ∧ x < m
    · rw [if_pos h]
      obtain ⟨hle, hmem, hall⟩ := ih (m := x)
      refine ⟨hle.trans h.2.le, .inr ?_, fun _ => hle, hall⟩
      rcases hmem with hmem | ⟨hmem, hp⟩
      · rw [hmem]
        exact ⟨List.mem_cons_self, h.1⟩
      · exact ⟨List.mem_cons_of_mem x hmem, hp⟩
    · rw [if_neg h]
      obtain ⟨hle, hmem, hall⟩ := ih (m := m)
      refine ⟨hle, hmem.imp id fun hx => ⟨List.mem_cons_of_mem x hx.1, hx.2⟩, fun hp => ?_, hall⟩
      exact hle.trans (not_lt.mp fun hlt => h ⟨hp, hlt⟩)

theorem greatest_spec :
    m ≤ greatest p m xs ∧ (greatest p m xs = m ∨ greatest p m xs ∈ xs ∧ p (greatest p m xs)) ∧
      ∀ x ∈ xs, p x → x ≤ greatest p m xs :=
  @least_spec αᵒᵈ _ p dec m xs

/-- Loops without a property. -/
theorem foldl_eq_least (m : α) (xs : List α) :
    xs.foldl (fun m x => if x < m then x else m) m = least (fun _ => True) m xs := by
  simp only [least, true_and]

theorem foldl_eq_greatest (m : α) (xs : List α) :
    xs.foldl (fun m x => if m < x then x else m) m = greatest (fun _ => True) m xs := by
  simp only [greatest, true_and]

/-- What the loop has found is the least. -/
theorem isLeast_least (h : least p m xs ≠ m) : IsLeast {x | x ∈ xs ∧ p x} (least p m xs) :=
  ⟨least_spec.2.1.resolve_left h, fun x hx => least_spec.2.2 x hx.1 hx.2⟩

/-- A sentinel that no element exceeds is found as well. -/
theorem isLeast_least_of_le {y : α} (hy : y ∈ xs) (hp : p y) (hm : ∀ x ∈ xs, p x → x ≤ m) :
    IsLeast {x | x ∈ xs ∧ p x} (least p m xs) := by
  by_cases h : least p m xs = m
  · have hle : m ≤ y := h ▸ least_spec.2.2 y hy hp
    have heq : y = m := le_antisymm (hm y hy hp) hle
    rw [h, ← heq]
    exact ⟨⟨hy, hp⟩, fun x hx => heq ▸ h ▸ least_spec.2.2 x hx.1 hx.2⟩
  · exact isLeast_least h

/-- A search for the greatest is one for the least in the order turned around. -/
theorem isGreatest_greatest_of_le {y : α} (hy : y ∈ xs) (hp : p y) (hm : ∀ x ∈ xs, p x → m ≤ x) :
    IsGreatest {x | x ∈ xs ∧ p x} (greatest p m xs) :=
  @isLeast_least_of_le αᵒᵈ _ p dec m xs y hy hp hm

end Loops

section Parts

variable [PartialOrder α] {A C : Set α} {m : α}

theorem isLeast_iff_of_subset (hm : IsLeast A m) (h : C ⊆ A) :
    IsLeast C m ↔ ∀ a ∈ A, ∃ c ∈ C, c ≤ a := by
  constructor
  · intro hc a ha
    exact ⟨m, hc.1, hm.2 ha⟩
  · intro hall
    obtain ⟨c, hc, hle⟩ := hall m hm.1
    have heq : c = m := le_antisymm hle (hm.2 (h hc))
    exact ⟨heq ▸ hc, fun x hx => hm.2 (h hx)⟩

theorem isGreatest_iff_of_subset (hm : IsGreatest A m) (h : C ⊆ A) :
    IsGreatest C m ↔ ∀ a ∈ A, ∃ c ∈ C, a ≤ c :=
  @isLeast_iff_of_subset αᵒᵈ _ A C m hm h

end Parts

end Select
