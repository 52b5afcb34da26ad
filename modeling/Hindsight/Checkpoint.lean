import Mathlib

/-!
# Hindsight.Checkpoint

Positions in a queue (`hs_checkpoint`: file id and byte offset) and pairs of them, one for each
queue (`hs_checkpoint_pair`). The code compares positions by file id first, then by offset; this
is the lexicographic order on `(id, offset)`.
-/

namespace Hindsight

/-- `ULLONG_MAX`. -/
def ullongMax : Nat := 2 ^ 64 - 1

structure Checkpoint where
  id : Nat
  offset : Nat
  deriving DecidableEq, Repr

namespace Checkpoint

def toProd (c : Checkpoint) : Nat ×ₗ Nat := toLex (c.id, c.offset)

theorem toProd_injective : Function.Injective toProd := by
  rintro ⟨i, o⟩ ⟨i', o'⟩ h
  simp only [toProd, EmbeddingLike.apply_eq_iff_eq, Prod.mk.injEq] at h
  obtain ⟨rfl, rfl⟩ := h
  rfl

instance : LinearOrder Checkpoint := LinearOrder.lift' toProd toProd_injective

theorem lt_iff {a b : Checkpoint} :
    a < b ↔ a.id < b.id ∨ a.id = b.id ∧ a.offset < b.offset := by
  change toProd a < toProd b ↔ _
  rw [Prod.Lex.lt_iff]
  rfl

theorem le_iff {a b : Checkpoint} :
    a ≤ b ↔ a.id < b.id ∨ a.id = b.id ∧ a.offset ≤ b.offset := by
  change toProd a ≤ toProd b ↔ _
  rw [Prod.Lex.le_iff]
  rfl

/-- The code's test for moving a checkpoint forward to `a`: the same file and a larger offset, or
a later file. -/
def passes (a c : Checkpoint) : Bool :=
  (a.id == c.id && a.offset > c.offset) || a.id > c.id

theorem passes_iff {a c : Checkpoint} : a.passes c = true ↔ c < a := by
  simp only [passes, Bool.or_eq_true, Bool.and_eq_true, beq_iff_eq, decide_eq_true_eq, lt_iff]
  omega

/-- Moving forward under the code's test is the maximum. -/
theorem ite_passes (a c : Checkpoint) : (if a.passes c then a else c) = max c a := by
  by_cases h : c < a
  · rw [if_pos (passes_iff.mpr h), max_eq_right h.le]
  · rw [if_neg (mt passes_iff.mp h), max_eq_left (not_lt.mp h)]

theorem zero_le (c : Checkpoint) : ⟨0, 0⟩ ≤ c := by
  rw [le_iff]
  show 0 < c.id ∨ 0 = c.id ∧ 0 ≤ c.offset
  omega

end Checkpoint

/-- The two message queues: the messages of the input plugins and those of the analysis
plugins. -/
inductive Queue where
  | input
  | analysis
  deriving DecidableEq, Repr

structure CheckpointPair where
  input : Checkpoint
  analysis : Checkpoint
  deriving DecidableEq, Repr

namespace CheckpointPair

def get (p : CheckpointPair) : Queue → Checkpoint
  | .input => p.input
  | .analysis => p.analysis

def set (p : CheckpointPair) (q : Queue) (c : Checkpoint) : CheckpointPair :=
  match q with
  | .input => { p with input := c }
  | .analysis => { p with analysis := c }

theorem ext_get {a b : CheckpointPair} (h : ∀ q, a.get q = b.get q) : a = b := by
  obtain ⟨i, n⟩ := a
  obtain ⟨i', n'⟩ := b
  have hi : i = i' := h .input
  have hn : n = n' := h .analysis
  rw [hi, hn]

@[simp] theorem get_set_same (p : CheckpointPair) (q : Queue) (c : Checkpoint) :
    (p.set q c).get q = c := by
  cases q <;> rfl

theorem get_set_other (p : CheckpointPair) {q r : Queue} (c : Checkpoint) (h : r ≠ q) :
    (p.set q c).get r = p.get r := by
  cases q <;> cases r <;> first | rfl | exact absurd rfl h

theorem set_get (p : CheckpointPair) (q : Queue) : p.set q (p.get q) = p := by
  cases q <;> rfl

instance : PartialOrder CheckpointPair where
  le a b := ∀ q, a.get q ≤ b.get q
  le_refl a q := le_refl _
  le_trans a b c hab hbc q := (hab q).trans (hbc q)
  le_antisymm a b hab hba := ext_get fun q => le_antisymm (hab q) (hba q)

/-- Setting one component to something later moves the pair forward. -/
theorem le_set {p : CheckpointPair} {q : Queue} {c : Checkpoint} (h : p.get q ≤ c) :
    p ≤ p.set q c := by
  intro r
  by_cases hr : r = q
  · subst hr; rw [get_set_same]; exact h
  · rw [get_set_other p c hr]

/-- The pair of the componentwise maxima. -/
def merge (a b : CheckpointPair) : CheckpointPair :=
  ⟨max a.input b.input, max a.analysis b.analysis⟩

@[simp] theorem get_merge (a b : CheckpointPair) (q : Queue) :
    (a.merge b).get q = max (a.get q) (b.get q) := by
  cases q <;> rfl

theorem le_merge_left (a b : CheckpointPair) : a ≤ a.merge b := fun q => by
  rw [get_merge]
  exact le_max_left _ _

theorem le_merge_right (a b : CheckpointPair) : b ≤ a.merge b := fun q => by
  rw [get_merge]
  exact le_max_right _ _

theorem merge_le {a b c : CheckpointPair} (ha : a ≤ c) (hb : b ≤ c) : a.merge b ≤ c := fun q => by
  rw [get_merge]
  exact max_le (ha q) (hb q)

theorem merge_eq_left {a b : CheckpointPair} (h : b ≤ a) : a.merge b = a :=
  le_antisymm (merge_le (le_refl a) h) (le_merge_left a b)

end CheckpointPair

end Hindsight
