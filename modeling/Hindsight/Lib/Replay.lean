import Mathlib

/-!
# Consumers that start again where they were

A consumer takes the items of a log in the order of their positions. It remembers how far it has come, and starts
again at a position it remembered, which may be behind the one it had reached.

* `Next items c e`: `e` is the first item after `c`.
* `Covers items origin c done`: all items after `origin` up to `c` are done.
* `Repeats c times n`: no item was taken more than `n + 1` times, and none after `c` more than `n` times.

The rules follow the consumer: it takes the next item (`advance`), and it goes back (`rewind`), which may cost it
one more turn of every item.
-/

namespace Replay

variable {P : Type*} [LinearOrder P] {items done done' : Set P} {origin c c' e : P}
  {times times' : P → Nat} {n : Nat}

def Next (items : Set P) (c e : P) : Prop := e ∈ items ∧ c < e ∧ ∀ m ∈ items, c < m → e ≤ m

def Covers (items : Set P) (origin c : P) (done : Set P) : Prop :=
  ∀ m ∈ items, origin < m → m ≤ c → m ∈ done

theorem Covers.start (items : Set P) (c : P) (done : Set P) : Covers items c c done :=
  fun _ _ hlt hle => absurd hlt (not_lt.mpr hle)

theorem Covers.mono (h : Covers items origin c done)
    (hsub : ∀ m, origin < m → m ≤ c → m ∈ done → m ∈ done') : Covers items origin c done' :=
  fun m hm hlt hle => hsub m hlt hle (h m hm hlt hle)

theorem Covers.advance (h : Covers items origin c done) (hnext : Next items c e) (he : e ∈ done) :
    Covers items origin e done := by
  intro m hm hlt hle
  rcases le_or_gt m c with hmc | hcm
  · exact h m hm hlt hmc
  · rwa [le_antisymm hle (hnext.2.2 m hm hcm)]

theorem Covers.rewind (h : Covers items origin c done) (hle : c' ≤ c) :
    Covers items origin c' done :=
  fun m hm hlt hmc => h m hm hlt (hmc.trans hle)

structure Repeats (c : P) (times : P → Nat) (n : Nat) : Prop where
  all : ∀ m, times m ≤ n + 1
  ahead : ∀ m, c < m → times m ≤ n

/-- The item that was taken was ahead. -/
theorem Repeats.advance (h : Repeats c times n) (hlt : c < e) (he : times' e ≤ times e + 1)
    (hother : ∀ m, m ≠ e → times' m ≤ times m) : Repeats e times' n where
  all m := by
    by_cases hm : m = e
    · subst hm
      exact he.trans (Nat.succ_le_succ (h.ahead m hlt))
    · exact (hother m hm).trans (h.all m)
  ahead m hm := (hother m hm.ne').trans (h.ahead m (hlt.trans hm))

theorem Repeats.rewind (h : Repeats c times n) (c' : P) : Repeats c' times (n + 1) :=
  ⟨fun m => (h.all m).trans (Nat.le_succ _), fun m _ => h.all m⟩

end Replay
