import Mathlib

/-!
# Writes that may fail

A program hands chunks to a stream one after the other. Each write may fail after part of its chunk,
and later ones may succeed again; whether the program looks at the result (`checked`) decides
whether it stops. `env i` is the outcome of write number `i`.

* `perform_ok_iff`: the program gets through exactly when no checked write fails.
* `failed_perform`, `out_perform`: what it has left then.
-/

namespace Writes

variable {α : Type*}

/-- What becomes of a write: `none` is success, `some n` a failure after `n` items. -/
abbrev Outcomes := Nat → Option Nat

structure Write (α : Type*) where
  chunk : List α
  checked : Bool

/-- The stream with the number of writes made so far, and whether one of them failed. -/
structure Stream (α : Type*) where
  calls : Nat
  out : List α
  failed : Bool

def Stream.empty : Stream α := ⟨0, [], false⟩

def Stream.write (env : Outcomes) (s : Stream α) (chunk : List α) : Stream α × Bool :=
  match env s.calls with
  | none => (⟨s.calls + 1, s.out ++ chunk, s.failed⟩, true)
  | some n => (⟨s.calls + 1, s.out ++ chunk.take n, true⟩, false)

/-- The writes in turn, up to the first checked one that fails. -/
def perform (env : Outcomes) : Stream α → List (Write α) → Stream α × Bool
  | s, [] => (s, true)
  | s, w :: ws =>
    let r := s.write env w.chunk
    if w.checked && !r.2 then (r.1, false) else perform env r.1 ws

variable {env : Outcomes}

@[simp] theorem calls_write (s : Stream α) (chunk : List α) :
    (s.write env chunk).1.calls = s.calls + 1 := by
  unfold Stream.write
  split <;> rfl

theorem ok_write (s : Stream α) (chunk : List α) :
    (s.write env chunk).2 = true ↔ env s.calls = none := by
  unfold Stream.write
  split <;> simp_all

theorem failed_write (s : Stream α) (chunk : List α) :
    (s.write env chunk).1.failed = true ↔ s.failed = true ∨ env s.calls ≠ none := by
  unfold Stream.write
  split <;> simp_all

theorem out_write {s : Stream α} (chunk : List α) (h : (s.write env chunk).1.failed = false) :
    (s.write env chunk).1.out = s.out ++ chunk ∧ s.failed = false := by
  unfold Stream.write at h ⊢
  split at h
  · exact ⟨rfl, h⟩
  · cases h

theorem perform_append (s : Stream α) (ws vs : List (Write α)) :
    perform env s (ws ++ vs) =
      if (perform env s ws).2 then perform env (perform env s ws).1 vs else perform env s ws := by
  induction ws generalizing s with
  | nil => rfl
  | cons w ws ih =>
    simp only [List.cons_append, perform]
    split
    · rfl
    · exact ih _

/-- A single write that is looked at. -/
theorem perform_checked (s : Stream α) (chunk : List α) :
    perform env s [⟨chunk, true⟩] = s.write env chunk := by
  simp only [perform, Bool.true_and]
  cases h : (s.write env chunk).2 with
  | false => simp [← h]
  | true => simp [← h]

theorem perform_ok_iff (s : Stream α) (ws : List (Write α)) :
    (perform env s ws).2 = true ↔
      ∀ i w, ws[i]? = some w → w.checked = true → env (s.calls + i) = none := by
  induction ws generalizing s with
  | nil => simp [perform]
  | cons w ws ih =>
    have hhead : (s.write env w.chunk).2 = true ↔ env s.calls = none := ok_write s w.chunk
    simp only [perform]
    constructor
    · intro h i v hv hc
      split at h
      · cases h
      · rename_i hw
        cases i with
        | zero =>
          cases hv
          rw [Nat.add_zero, ← hhead]
          simpa [hc] using hw
        | succ i =>
          have := (ih _).mp h i v hv hc
          rwa [calls_write, Nat.add_assoc, Nat.add_comm 1] at this
    · intro h
      have hw : ¬(w.checked && !(s.write env w.chunk).2) = true := by
        intro hw
        rw [Bool.and_eq_true, Bool.not_eq_true'] at hw
        have := hhead.mpr (h 0 w rfl hw.1)
        rw [hw.2] at this
        cases this
      rw [if_neg hw, ih]
      intro i v hv hc
      rw [calls_write, Nat.add_assoc, Nat.add_comm 1]
      exact h (i + 1) v hv hc

/-- When the program gets through, all writes were made; those that failed were not looked at. -/
theorem failed_perform {s : Stream α} {ws : List (Write α)} (h : (perform env s ws).2 = true) :
    (perform env s ws).1.failed = true ↔
      s.failed = true ∨ ∃ i, i < ws.length ∧ env (s.calls + i) ≠ none := by
  induction ws generalizing s with
  | nil => simp [perform]
  | cons w ws ih =>
    simp only [perform] at h ⊢
    split at h
    · cases h
    · rename_i hw
      rw [if_neg hw, ih h, failed_write, calls_write, or_assoc]
      refine or_congr_right ⟨?_, ?_⟩
      · rintro (h0 | ⟨i, hi, hf⟩)
        · exact ⟨0, Nat.zero_lt_succ _, h0⟩
        · exact ⟨i + 1, Nat.succ_lt_succ hi, by rwa [Nat.add_assoc, Nat.add_comm 1] at hf⟩
      · rintro ⟨i, hi, hf⟩
        cases i with
        | zero => exact .inl hf
        | succ i =>
          refine .inr ⟨i, Nat.lt_of_succ_lt_succ hi, ?_⟩
          rwa [Nat.add_assoc, Nat.add_comm 1]

/-- Without a failure the stream has all chunks. -/
theorem out_perform {s : Stream α} {ws : List (Write α)}
    (h : (perform env s ws).1.failed = false) :
    (perform env s ws).1.out = s.out ++ ws.flatMap Write.chunk ∧ s.failed = false := by
  induction ws generalizing s with
  | nil => exact ⟨(List.append_nil _).symm, h⟩
  | cons w ws ih =>
    simp only [perform] at h ⊢
    split at h
    · rename_i hw
      have hbad := (Bool.and_eq_true_iff.mp hw).2
      rw [Bool.not_eq_true', ← Bool.not_eq_true, ok_write] at hbad
      have := (failed_write s w.chunk).mpr (.inr hbad)
      rw [h] at this
      cases this
    · rename_i hw
      obtain ⟨hout, hf⟩ := ih h
      obtain ⟨hout', hf'⟩ := out_write _ hf
      rw [if_neg hw, hout, hout', List.flatMap_cons, List.append_assoc]
      exact ⟨rfl, hf'⟩

end Writes
