import Mathlib

/-!
# Sequences of files

`Span.concat f i n`: the contents `f i, f (i + 1), …, f (i + n - 1)` one after the other. Indices
without content may be skipped at either end.
-/

namespace Span

variable {α : Type*} (f : Nat → List α)

def concat (i n : Nat) : List α := (List.range' i n).flatMap f

theorem concat_succ (i n : Nat) : concat f i (n + 1) = f i ++ concat f (i + 1) n := by
  rw [concat, List.range'_succ, List.flatMap_cons]
  rfl

theorem concat_succ_last (i n : Nat) : concat f i (n + 1) = concat f i n ++ f (i + n) := by
  rw [concat, List.range'_concat, List.flatMap_append, List.flatMap_singleton, Nat.one_mul]
  rfl

theorem concat_congr {f g : Nat → List α} {i n : Nat} (h : ∀ j, i ≤ j → j < i + n → f j = g j) :
    concat f i n = concat g i n := by
  induction n with
  | zero => rfl
  | succ n ih =>
    rw [concat_succ_last, concat_succ_last, ih fun j hj hj' => h j hj (by omega),
      h (i + n) (by omega) (by omega)]

/-- What is added to the last content comes at the end. -/
theorem concat_update_last (i n : Nat) (as : List α) :
    concat (Function.update f (i + n) (f (i + n) ++ as)) i (n + 1) = concat f i (n + 1) ++ as := by
  rw [concat_succ_last, concat_succ_last, Function.update_self, List.append_assoc]
  congr 1
  refine concat_congr fun j _ hj => ?_
  rw [Function.update_of_ne (by omega)]

theorem concat_flatMap {β : Type*} (g : α → List β) (i n : Nat) :
    concat (fun j => (f j).flatMap g) i n = (concat f i n).flatMap g := by
  rw [concat, concat, List.flatMap_assoc]

variable {f}

theorem concat_add {i n : Nat} (h : ∀ j, i + n ≤ j → f j = []) (k : Nat) :
    concat f i (n + k) = concat f i n := by
  induction k with
  | zero => rfl
  | succ k ih => rw [← Nat.add_assoc, concat_succ_last, ih, h _ (by omega), List.append_nil]

theorem concat_nil {i : Nat} (h : ∀ j, i ≤ j → f j = []) (n : Nat) : concat f i n = [] := by
  have := concat_add (f := f) (i := i) (n := 0) h n
  rwa [Nat.zero_add] at this

theorem concat_skip {i k : Nat} (h : ∀ j, i ≤ j → j < i + k → f j = []) (n : Nat) :
    concat f i (k + n) = concat f (i + k) n := by
  induction k generalizing i with
  | zero => rw [Nat.zero_add, Nat.add_zero]
  | succ k ih =>
    have hk : k + 1 + n = (k + n) + 1 := by omega
    have hi : i + (k + 1) = i + 1 + k := by omega
    rw [hk, concat_succ, h i (Nat.le_refl i) (by omega), List.nil_append,
      ih fun j hj hj' => h j (by omega) (by omega), hi]

/-- Up to `last`, what follows `i` starts with the next content there is. -/
theorem concat_next {i j last : Nat} (hij : i < j) (hj : j ≤ last)
    (h : ∀ k, i < k → k < j → f k = []) :
    concat f (i + 1) (last - i) = f j ++ concat f (j + 1) (last - j) := by
  have hn : last - i = (j - i - 1) + ((last - j) + 1) := by omega
  have hi : i + 1 + (j - i - 1) = j := by omega
  rw [hn, concat_skip fun k hk hk' => h k (by omega) (by omega), hi, concat_succ]

end Span
