import Mathlib

/-!
# Chunks of an append-only sequence

`At content off chunk`: `chunk` stands in `content` from offset `off` on. A chunk of a sequence
that is only ever appended to stays where it is.
-/

namespace Chunk

variable {α : Type*}

/-- `chunk` occupies the positions `off, …, off + chunk.length - 1` of `content`. -/
def At (content : List α) (off : Nat) (chunk : List α) : Prop :=
  chunk <+: content.drop off

theorem At.mono {content content' : List α} {off : Nat} {chunk : List α}
    (h : At content off chunk) (hp : content <+: content') : At content' off chunk :=
  h.trans (hp.drop off)

/-- What is appended stands at the old end. -/
theorem at_end (content chunk : List α) : At (content ++ chunk) content.length chunk := by
  simp [At]

instance [DecidableEq α] (content : List α) (off : Nat) (chunk : List α) :
    Decidable (At content off chunk) :=
  inferInstanceAs (Decidable (chunk <+: content.drop off))

end Chunk
