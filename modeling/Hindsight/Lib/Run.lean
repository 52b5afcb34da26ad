import Mathlib

/-!
# Runs of a partial machine

A machine is a partial step function `σ → ε → Option σ`: an event that is not enabled in a state
has no successor, and all nondeterminism (scheduling, the environment) is in the choice of the
events. A run is a list of events.

* `Always step P s es`: `P` holds in every state the run `es` from `s` passes through.
* `Meets step C s es`: every step the run takes meets the condition `C` in the state it is
  taken from.
* `run_invariant`, `run_invariant_of_meets`: the invariant rules.
* `run_matched`: a machine that matches each step by a run matches each run.
* `of_count`: a measure that the steps that count bring down.
* `always_iff_meets`: when, under an invariant, a step keeps `P` exactly when it meets `C`, a run
  keeps `P` throughout exactly when all its steps meet `C`.
-/

namespace Runs

variable {σ ε τ : Type*}

/-- Run a list of events; `none` when one of them is not enabled where it is taken. -/
def run (step : σ → ε → Option σ) : σ → List ε → Option σ
  | s, [] => some s
  | s, e :: es =>
    match step s e with
    | some s' => run step s' es
    | none => none

/-- `P` in every state of the run, the first one included. -/
def Always (step : σ → ε → Option σ) (P : σ → Prop) : σ → List ε → Prop
  | s, [] => P s
  | s, e :: es => P s ∧ ∀ s', step s e = some s' → Always step P s' es

/-- Every step of the run meets `C` in the state it is taken from. -/
def Meets (step : σ → ε → Option σ) (C : σ → ε → Prop) : σ → List ε → Prop
  | _, [] => True
  | s, e :: es => ∀ s', step s e = some s' → C s e ∧ Meets step C s' es

variable {step : σ → ε → Option σ} {P I : σ → Prop} {C : σ → ε → Prop}

theorem run_cons {s t : σ} {e : ε} {es : List ε} (h : run step s (e :: es) = some t) :
    ∃ s', step s e = some s' ∧ run step s' es = some t := by
  simp only [run] at h
  split at h
  · exact ⟨_, ‹_›, h⟩
  · cases h

theorem Meets.cons {s s' : σ} {e : ε} {es : List ε} (h : step s e = some s') (hc : C s e)
    (hm : Meets step C s' es) : Meets step C s (e :: es) := by
  intro t ht
  rw [h] at ht
  cases ht
  exact ⟨hc, hm⟩

theorem run_append (s : σ) (es fs : List ε) :
    run step s (es ++ fs) = (run step s es).bind fun t => run step t fs := by
  induction es generalizing s with
  | nil => rfl
  | cons e es ih =>
    simp only [List.cons_append, run]
    cases step s e with
    | none => rfl
    | some s' => exact ih s'

theorem Always.head {s : σ} {es : List ε} (h : Always step P s es) : P s := by
  cases es with
  | nil => exact h
  | cons e es => exact h.1

/-- `Always` speaks about every state a prefix of the run reaches. -/
theorem always_iff_initial {s : σ} {es : List ε} :
    Always step P s es ↔ ∀ fs t, fs <+: es → run step s fs = some t → P t := by
  induction es generalizing s with
  | nil =>
    constructor
    · intro h fs t hp hr
      rw [List.prefix_nil.mp hp] at hr
      cases hr
      exact h
    · intro h
      exact h [] s (List.prefix_refl _) rfl
  | cons e es ih =>
    constructor
    · rintro ⟨hs, hnext⟩ fs t hp hr
      cases fs with
      | nil => cases hr; exact hs
      | cons f fs =>
        obtain ⟨rfl, hp'⟩ := List.cons_prefix_cons.mp hp
        obtain ⟨s', hs', hr'⟩ := run_cons hr
        exact ih.mp (hnext s' hs') fs t hp' hr'
    · intro h
      refine ⟨h [] s (List.nil_prefix) rfl, fun s' hs' => ih.mpr fun fs t hp hr => ?_⟩
      refine h (e :: fs) t (List.cons_prefix_cons.mpr ⟨rfl, hp⟩) ?_
      simp only [run, hs', hr]

theorem Always.run {s t : σ} {es : List ε} (h : Always step P s es)
    (hr : run step s es = some t) : P t :=
  always_iff_initial.mp h es t (List.prefix_refl _) hr

theorem Always.mono {Q : σ → Prop} (himp : ∀ s, P s → Q s) {s : σ} {es : List ε}
    (h : Always step P s es) : Always step Q s es :=
  always_iff_initial.mpr fun fs t hp hr => himp t (always_iff_initial.mp h fs t hp hr)

theorem Meets.mono {D : σ → ε → Prop} (himp : ∀ s e, C s e → D s e) {s : σ} {es : List ε}
    (h : Meets step C s es) : Meets step D s es := by
  induction es generalizing s with
  | nil => trivial
  | cons e es ih =>
    intro s' hs'
    exact ⟨himp s e (h s' hs').1, ih (h s' hs').2⟩

/-- An invariant that holds at the start and is kept by every step holds all along every run. -/
theorem always_of_invariant (hstep : ∀ s e s', I s → step s e = some s' → I s') {s : σ}
    (hs : I s) (es : List ε) : Always step I s es := by
  induction es generalizing s with
  | nil => exact hs
  | cons e es ih => exact ⟨hs, fun s' hs' => ih (hstep s e s' hs hs')⟩

theorem run_invariant (hstep : ∀ s e s', I s → step s e = some s' → I s') {s t : σ}
    {es : List ε} (hs : I s) (hr : run step s es = some t) : I t :=
  (always_of_invariant hstep hs es).run hr

/-- An invariant kept by every step that meets `C` holds all along every run whose steps do. -/
theorem always_of_meets (hstep : ∀ s e s', I s → C s e → step s e = some s' → I s') {s : σ}
    {es : List ε} (hs : I s) (hc : Meets step C s es) : Always step I s es := by
  induction es generalizing s with
  | nil => exact hs
  | cons e es ih =>
    refine ⟨hs, fun s' hs' => ?_⟩
    obtain ⟨h1, h2⟩ := hc s' hs'
    exact ih (hstep s e s' hs h1 hs') h2

theorem run_invariant_of_meets (hstep : ∀ s e s', I s → C s e → step s e = some s' → I s')
    {s t : σ} {es : List ε} (hs : I s) (hc : Meets step C s es)
    (hr : run step s es = some t) : I t :=
  (always_of_meets hstep hs hc).run hr

/-- Where another machine matches each step by a run of its own, it matches each run. -/
theorem run_matched {φ : Type*} {step' : τ → φ → Option τ} {f : σ → τ}
    (hstep : ∀ s e s', I s → C s e → step s e = some s' → I s')
    (hmatch : ∀ s e s', I s → step s e = some s' → ∃ es', run step' (f s) es' = some (f s'))
    {s t : σ} {es : List ε} (hs : I s) (hc : Meets step C s es) (hr : run step s es = some t) :
    ∃ es', run step' (f s) es' = some (f t) := by
  induction es generalizing s with
  | nil =>
    cases hr
    exact ⟨[], rfl⟩
  | cons e es ih =>
    obtain ⟨s', hs', hr'⟩ := run_cons hr
    obtain ⟨hce, hrest⟩ := hc s' hs'
    obtain ⟨es₁, h₁⟩ := hmatch s e s' hs hs'
    obtain ⟨es₂, h₂⟩ := ih (hstep s e s' hs hce hs') hrest hr'
    refine ⟨es₁ ++ es₂, ?_⟩
    rw [run_append, h₁]
    exact h₂

/-- Where `C` is exactly what a step needs to keep `P`, a run keeps `P` in every state exactly
when all its steps meet `C`; the invariant that shows it may need all steps to meet `D`. -/
theorem always_iff_meets_of {D : σ → ε → Prop}
    (hinv : ∀ s e s', I s → D s e → step s e = some s' → I s')
    (hstep : ∀ s e s', I s → D s e → P s → step s e = some s' → (P s' ↔ C s e)) {s : σ}
    (hI : I s) (hP : P s) {es : List ε} (hD : Meets step D s es) :
    Always step P s es ↔ Meets step C s es := by
  induction es generalizing s with
  | nil => exact ⟨fun _ => trivial, fun _ => hP⟩
  | cons e es ih =>
    constructor
    · rintro ⟨-, h⟩ s' hs'
      obtain ⟨hd, hrest⟩ := hD s' hs'
      have hP' : P s' := (h s' hs').head
      exact ⟨(hstep s e s' hI hd hP hs').mp hP',
        (ih (hinv s e s' hI hd hs') hP' hrest).mp (h s' hs')⟩
    · intro h
      refine ⟨hP, fun s' hs' => ?_⟩
      obtain ⟨hd, hrest⟩ := hD s' hs'
      obtain ⟨hc, hmeets⟩ := h s' hs'
      have hP' : P s' := (hstep s e s' hI hd hP hs').mpr hc
      exact (ih (hinv s e s' hI hd hs') hP' hrest).mpr hmeets

theorem meets_true (s : σ) (es : List ε) : Meets step (fun _ _ => True) s es := by
  induction es generalizing s with
  | nil => trivial
  | cons e es ih => exact fun s' _ => ⟨trivial, ih s'⟩

theorem always_iff_meets (hinv : ∀ s e s', I s → step s e = some s' → I s')
    (hstep : ∀ s e s', I s → P s → step s e = some s' → (P s' ↔ C s e)) {s : σ}
    (hI : I s) (hP : P s) (es : List ε) : Always step P s es ↔ Meets step C s es :=
  always_iff_meets_of (fun s e s' hi _ => hinv s e s' hi) (fun s e s' hi _ => hstep s e s' hi)
    hI hP (meets_true s es)

/-! ## Progress -/

/-- How many steps of the run count. -/
def count (step : σ → ε → Option σ) (counts : σ → ε → Bool) : σ → List ε → Nat
  | _, [] => 0
  | s, e :: es =>
    match step s e with
    | some s' => (if counts s e then 1 else 0) + count step counts s' es
    | none => 0

/-- Steps that count bring a measure down until `P` holds, and no step brings it up: after more
steps that count than the measure was, `P` holds. -/
theorem of_count {counts : σ → ε → Bool} {μ : σ → Nat}
    (hinv : ∀ s e s', I s → step s e = some s' → I s')
    (hkeep : ∀ s e s', I s → step s e = some s' → P s → P s')
    (hstep : ∀ s e s', I s → step s e = some s' → ¬P s →
      μ s' + (if counts s e then 1 else 0) ≤ μ s)
    {s t : σ} {es : List ε} (hs : I s) (hr : run step s es = some t)
    (hc : μ s < count step counts s es) : P t := by
  induction es generalizing s with
  | nil => exact absurd hc (Nat.not_lt_zero _)
  | cons e es ih =>
    obtain ⟨s', hs', hr'⟩ := run_cons hr
    by_cases hP : P s
    · have hall := always_of_invariant (I := fun s => I s ∧ P s)
        (fun s e s' h hs' => ⟨hinv s e s' h.1 hs', hkeep s e s' h.1 hs' h.2⟩) ⟨hs, hP⟩ (e :: es)
      exact (hall.run hr).2
    · have hlt := hstep s e s' hs hs' hP
      simp only [count, hs'] at hc
      exact ih (hinv s e s' hs hs') hr' (by omega)

/-! ## Deciding a given run -/

instance decidableAlways [DecidablePred P] : ∀ s es, Decidable (Always step P s es)
  | s, [] => inferInstanceAs (Decidable (P s))
  | s, e :: es =>
    match h : step s e with
    | none => decidable_of_iff (P s) (by simp [Always, h])
    | some s' =>
      have := decidableAlways s' es
      decidable_of_iff (P s ∧ Always step P s' es) (by simp [Always, h])

instance decidableMeets [∀ s e, Decidable (C s e)] : ∀ s es, Decidable (Meets step C s es)
  | _, [] => isTrue trivial
  | s, e :: es =>
    match h : step s e with
    | none => isTrue (by simp [Meets, h])
    | some s' =>
      have := decidableMeets s' es
      decidable_of_iff (C s e ∧ Meets step C s' es) (by simp [Meets, h])

/-! ## Observers -/

/-- The machine run side by side with an observer that sees each event and the state it is
taken from. The observer never blocks a step. -/
def observe (step : σ → ε → Option σ) (see : σ → τ → ε → τ) (p : σ × τ) (e : ε) :
    Option (σ × τ) :=
  (step p.1 e).map fun s' => (s', see p.1 p.2 e)

theorem observe_some {see : σ → τ → ε → τ} {p q : σ × τ} {e : ε} :
    observe step see p e = some q ↔ step p.1 e = some q.1 ∧ q.2 = see p.1 p.2 e := by
  obtain ⟨s, t⟩ := p
  obtain ⟨s', t'⟩ := q
  simp only [observe, Option.map_eq_some_iff, Prod.mk.injEq]
  constructor
  · rintro ⟨a, h, rfl, rfl⟩
    exact ⟨h, rfl⟩
  · rintro ⟨h, rfl⟩
    exact ⟨s', h, rfl, rfl⟩

/-- A run with an observer, step by step. -/
theorem run_observe {see : σ → τ → ε → τ} {s : σ} (s' : σ) {t : τ} {e : ε} {es : List ε}
    {u : σ × τ} (h : step s e = some s') (hr : run (observe step see) (s', see s t e) es = some u) :
    run (observe step see) (s, t) (e :: es) = some u := by
  have hs : observe step see (s, t) e = some (s', see s t e) := observe_some.mpr ⟨h, rfl⟩
  simp only [run, hs, hr]

end Runs
