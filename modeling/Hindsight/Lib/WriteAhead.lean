import Mathlib

/-!
# Write-ahead discipline

Clients (indices `ι`) hold checkpoints; a checkpoint stands for a set of records (`ρ`) that it
promises are durable. A writer copies the live checkpoints into a store, makes the records
durable, and then persists the store. `Ahead durable stored persisted dirty` says how far such a
writer has got: the stored checkpoints of the clients outside `dirty` and all persisted ones
stand for durable records only.

The rules follow the writer: records become durable (`grow`), checkpoints are copied (`copy`,
`copy_durable`), everything written is flushed (`flush`), the store is persisted (`persist`).
-/

namespace WriteAhead

variable {ι ρ : Type*} {durable durable' : Set ρ} {stored persisted : ι → Set ρ} {dirty : Set ι}

structure Ahead (durable : Set ρ) (stored persisted : ι → Set ρ) (dirty : Set ι) : Prop where
  clean : ∀ i, i ∉ dirty → stored i ⊆ durable
  persisted : ∀ i, persisted i ⊆ durable

/-- Records only ever become durable. -/
theorem Ahead.grow (h : Ahead durable stored persisted dirty) (hsub : durable ⊆ durable') :
    Ahead durable' stored persisted dirty :=
  ⟨fun i hi => (h.clean i hi).trans hsub, fun i => (h.persisted i).trans hsub⟩

/-- Copying checkpoints of clients that are then dirty. -/
theorem Ahead.copy (h : Ahead durable stored persisted dirty) {stored' : ι → Set ρ}
    {dirty' : Set ι} (hsub : dirty ⊆ dirty') (hother : ∀ i, i ∉ dirty' → stored' i ⊆ stored i) :
    Ahead durable stored' persisted dirty' :=
  ⟨fun i hi => (hother i hi).trans (h.clean i fun hd => hi (hsub hd)), h.persisted⟩

theorem Ahead.weaken (h : Ahead durable stored persisted dirty) {dirty' : Set ι}
    (hsub : dirty ⊆ dirty') : Ahead durable stored persisted dirty' :=
  h.copy hsub fun _ _ => Set.Subset.refl _

/-- Checkpoints copied when their records are already durable leave nothing to flush. -/
theorem Ahead.copy_durable (h : Ahead durable stored persisted dirty) {stored' : ι → Set ρ}
    (hcopy : ∀ i, stored' i ⊆ stored i ∨ stored' i ⊆ durable) :
    Ahead durable stored' persisted dirty := by
  refine ⟨fun i hi => ?_, h.persisted⟩
  rcases hcopy i with hsub | hsub
  · exact hsub.trans (h.clean i hi)
  · exact hsub

/-- After a flush that reaches all records of the copied checkpoints, nothing is dirty. -/
theorem Ahead.flush (h : Ahead durable stored persisted dirty) (hsub : durable ⊆ durable')
    (hdirty : ∀ i ∈ dirty, stored i ⊆ durable') : Ahead durable' stored persisted ∅ := by
  refine ⟨fun i _ => ?_, fun i => (h.persisted i).trans hsub⟩
  by_cases hi : i ∈ dirty
  · exact hdirty i hi
  · exact (h.clean i hi).trans hsub

/-- The store may be persisted once nothing is dirty. -/
theorem Ahead.persist (h : Ahead durable stored persisted ∅) :
    Ahead durable stored stored ∅ :=
  ⟨h.clean, fun i => h.clean i (Set.notMem_empty i)⟩

end WriteAhead
