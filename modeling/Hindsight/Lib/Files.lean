import Mathlib

/-!
# Files

A file system as a map from paths to files, with the two calls that change names. Which calls fail beyond
those that must is a parameter.
-/

namespace Files

variable {π φ : Type}

abbrev Disk (π φ : Type) := π → Option φ

inductive Call (π : Type) where
  | unlink (p : π)
  | rename (old new : π)
  deriving DecidableEq, Repr

variable [DecidableEq π] (fails : Call π → Bool)

/-- `none` when the call fails; the disk is then as before. -/
def unlink (p : π) (d : Disk π φ) : Option (Disk π φ) :=
  if (d p).isNone || fails (.unlink p) then none else some (Function.update d p none)

def rename (old new : π) (d : Disk π φ) : Option (Disk π φ) :=
  match d old with
  | none => none
  | some f =>
    if fails (.rename old new) then none
    else some (if old = new then d else Function.update (Function.update d old none) new (some f))

variable {fails} {p old new : π} {d d' : Disk π φ}

theorem unlink_cases (h : unlink fails p d = some d') :
    fails (.unlink p) = false ∧ d p ≠ none ∧ d' = Function.update d p none := by
  unfold unlink at h
  split at h
  · cases h
  · rename_i hc
    rw [Bool.or_eq_true, not_or, Bool.not_eq_true, Bool.not_eq_true, Option.isNone_eq_false_iff,
      Option.isSome_iff_ne_none] at hc
    exact ⟨hc.2, hc.1, (Option.some.inj h).symm⟩

theorem rename_cases (hne : old ≠ new) (h : rename fails old new d = some d') :
    ∃ f, d old = some f ∧ fails (.rename old new) = false ∧
      d' = Function.update (Function.update d old none) new (some f) := by
  unfold rename at h
  split at h
  · cases h
  · rename_i f hf
    split at h
    · cases h
    · rename_i hfails
      exact ⟨f, hf, by simpa using hfails, (Option.some.inj h).symm⟩

theorem rename_eq_none : rename fails old new d = none ↔ d old = none ∨ fails (.rename old new) = true := by
  unfold rename
  split
  · rename_i h
    exact iff_of_true rfl (.inl h)
  · rename_i f h
    simp [h]

end Files
