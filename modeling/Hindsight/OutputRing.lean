import Hindsight.Lib.Run
import Hindsight.OutputPlugin

/-!
# Hindsight.OutputRing

The ring `async_cp` of an asynchronous output plugin. An observer keeps the messages in flight
(returned `ASYNC`, not yet acknowledged) with the read positions at which they were processed. An
acknowledgement that comes during the message's own `process_message` call counts as well: such a
message is never in flight.

* `Safe`: the slot of each message in flight holds the positions it was processed at.
* `Admits`: no other message is offered whose sequence id has the slot of a message in flight.
* `ring_safe_iff`: a run keeps `Safe` exactly when all its steps are admitted.
* `ring_unsafe`: a full ring loses the position of the oldest message in flight to the next offer,
  whatever that offer returns.
-/

namespace Hindsight

namespace OutputRing

open OutputPlugin

/-- A message in flight: its sequence id, and `p->cur` when it was processed. -/
structure Flight where
  id : Nat
  cur : CheckpointPair
  deriving DecidableEq, Repr

/-- `early`: the message inside `process_message` is acknowledged already. -/
structure Ledger where
  inflight : List Flight
  early : Bool
  deriving DecidableEq, Repr

namespace Ledger

def acknowledge (l : Ledger) (seq : Nat) : Ledger :=
  { l with inflight := l.inflight.filter fun m => m.id ≠ seq }

/-- The observer. -/
def see (p : OutputPlugin) (l : Ledger) : OpEvent → Ledger
  | .matcher true => { l with early := false }
  | .callback seq =>
    if seq = 0 then l
    else
      match p.pc with
      | .process _ => { l.acknowledge seq with early := l.early || seq == p.nextSequenceId }
      | _ => l.acknowledge seq
  | .pmReturn .async =>
    if l.early then l else { l with inflight := ⟨p.nextSequenceId, p.cur⟩ :: l.inflight }
  | _ => l

end Ledger

abbrev State := OutputPlugin × Ledger

def step : State → OpEvent → Option State := Runs.observe OutputPlugin.step Ledger.see

def init (rq : ReadQueue) (asyncLen tickerInterval tickerExpires : Nat)
    (start : CheckpointPair) : State :=
  (OutputPlugin.create rq asyncLen tickerInterval tickerExpires start, ⟨[], false⟩)

/-- The ring slot of a sequence id. -/
def slot (p : OutputPlugin) (seq : Nat) : Nat := seq % p.asyncLen

def Safe (s : State) : Prop := ∀ m ∈ s.2.inflight, s.1.asyncCp (slot s.1 m.id) = m.cur

/-- The offer of a message takes no slot of a message in flight that was processed elsewhere. -/
def Admits (s : State) : OpEvent → Prop
  | .matcher true =>
    ∀ m ∈ s.2.inflight, slot s.1 m.id = slot s.1 s.1.nextSequenceId → m.cur = s.1.cur
  | _ => True

/-- While a message is processed, its slot holds the current positions. -/
structure Inv (p : OutputPlugin) : Prop where
  len : p.asyncLen ≠ 0
  saved : ∀ again, p.pc = .process again → p.asyncCp (slot p p.nextSequenceId) = p.cur

section

variable {p p' : OutputPlugin} {l : Ledger} {e : OpEvent}

/-! ## The plugin's side -/

/-- An acknowledgement moves neither the ring nor the counters it is read with. -/
theorem updateCheckpointCallback_ring (p : OutputPlugin) (seq : Nat) :
    (p.updateCheckpointCallback seq).asyncCp = p.asyncCp ∧
      (p.updateCheckpointCallback seq).asyncLen = p.asyncLen ∧
      (p.updateCheckpointCallback seq).sequenceId = p.sequenceId ∧
      (p.updateCheckpointCallback seq).cur = p.cur ∧ (p.updateCheckpointCallback seq).pc = p.pc := by
  by_cases h : seq ≠ 0 ∧ p.asyncLen ≠ 0
  · rw [updateCheckpointCallback_ack h.1 h.2]
    exact ⟨rfl, rfl, rfl, rfl, rfl⟩
  · rw [updateCheckpointCallback_null h]
    split <;> exact ⟨rfl, rfl, rfl, rfl, rfl⟩

theorem pmReturn_ring (p : OutputPlugin) (r : PmRet) :
    ((p.pmReturn r).1.advance (p.pmReturn r).2).asyncCp = p.asyncCp ∧
      ((p.pmReturn r).1.advance (p.pmReturn r).2).asyncLen = p.asyncLen := by
  rw [advance_eq]
  cases r with
  | async => simp only [pmReturn]; split <;> split <;> exact ⟨rfl, rfl⟩
  | _ => split <;> exact ⟨rfl, rfl⟩

theorem saveAsync_eq (hlen : p.asyncLen ≠ 0) :
    p.saveAsync =
      { p with asyncCp := Function.update p.asyncCp (slot p p.nextSequenceId) p.cur } := by
  rw [saveAsync, if_pos hlen]
  rfl

/-- Every step but an offer leaves the ring as it is. -/
theorem step_ring (h : p.step e = some p') (he : e ≠ .matcher true) :
    p'.asyncCp = p.asyncCp ∧ p'.asyncLen = p.asyncLen := by
  by_cases hctl : control e = true
  · have hcore := step_control h hctl
    simp only [core, Prod.mk.injEq] at hcore
    exact ⟨hcore.2.1, hcore.1⟩
  cases e with
  | stop | head | idle | nothing | ticker | timerReturn | reoffer | shutdownReturn =>
    exact absurd rfl hctl
  | openFirst q =>
    rw [step_openFirst h]
    exact ⟨rfl, rfl⟩
  | reset q c =>
    rw [(step_reset h).2]
    exact ⟨rfl, rfl⟩
  | deliver q c =>
    obtain ⟨-, -, -, rfl⟩ := step_deliver h
    exact ⟨rfl, rfl⟩
  | callback seq =>
    rw [(step_callback h).2]
    obtain ⟨hring, hlen, -⟩ := updateCheckpointCallback_ring p seq
    exact ⟨hring, hlen⟩
  | matcher matched =>
    obtain ⟨again, -, rfl⟩ := step_matcher h
    cases matched with
    | true => exact absurd rfl he
    | false =>
      simp only [Bool.false_eq_true, if_false, advance_eq]
      split <;> exact ⟨rfl, rfl⟩
  | pmReturn r =>
    obtain ⟨again, -, rfl⟩ := step_pmReturn h
    exact pmReturn_ring p r

theorem step_inv (hI : Inv p) (h : p.step e = some p') : Inv p' := by
  by_cases hoffer : e = .matcher true
  · subst hoffer
    obtain ⟨again, -, rfl⟩ := step_matcher h
    rw [if_pos rfl, saveAsync_eq hI.len]
    exact ⟨hI.len, fun _ _ => Function.update_self _ _ _⟩
  obtain ⟨hring, hlen⟩ := step_ring h hoffer
  refine ⟨hlen ▸ hI.len, fun again hpc => ?_⟩
  by_cases hctl : control e = true
  · have hcore := step_control h hctl
    simp only [core, Prod.mk.injEq] at hcore
    obtain ⟨-, -, -, hcur, hseq, -⟩ := hcore
    have hsaved := hI.saved again (control_process h hctl hpc)
    rw [slot, nextSequenceId, hseq, hlen, hring, hcur]
    exact hsaved
  cases e with
  | stop | head | idle | nothing | ticker | timerReturn | reoffer | shutdownReturn =>
    exact absurd rfl hctl
  | openFirst q =>
    rw [step_openFirst h] at hpc ⊢
    exact hI.saved again hpc
  | reset q c =>
    simp only [OutputPlugin.step, Option.ite_none_right_eq_some, Option.some.injEq] at h
    obtain ⟨⟨hbody, -⟩, rfl⟩ := h
    cases hbody.symm.trans hpc
  | deliver q c =>
    obtain ⟨-, -, -, rfl⟩ := step_deliver h
    cases hpc
  | callback seq =>
    obtain ⟨-, -, hseq, hcur, hpc'⟩ := updateCheckpointCallback_ring p seq
    rw [(step_callback h).2] at hpc hring hlen ⊢
    rw [slot, nextSequenceId, hseq, hlen, hring, hcur]
    exact hI.saved again (hpc' ▸ hpc)
  | matcher matched =>
    obtain ⟨again', -, rfl⟩ := step_matcher h
    cases matched with
    | true => exact absurd rfl hoffer
    | false => cases hpc
  | pmReturn r =>
    obtain ⟨again', -, rfl⟩ := step_pmReturn h
    cases hpc

/-! ## The observer's side -/

/-- The messages in flight after a step that is not an offer were in flight before, or have just
returned `ASYNC` and stand in the slot their offer filled. -/
theorem inflight_see (hI : Inv p) (h : p.step e = some p') {m : Flight}
    (hm : m ∈ (Ledger.see p l e).inflight) :
    m ∈ l.inflight ∨ p.asyncCp (slot p m.id) = m.cur := by
  cases e with
  | callback seq =>
    refine .inl ?_
    simp only [Ledger.see] at hm
    split at hm
    · exact hm
    · split at hm <;> exact (List.mem_filter.mp hm).1
  | matcher matched => cases matched <;> exact .inl hm
  | pmReturn r =>
    cases r with
    | async =>
      simp only [Ledger.see] at hm
      split at hm
      · exact .inl hm
      · obtain ⟨again, hpc, -⟩ := step_pmReturn h
        rcases List.mem_cons.mp hm with rfl | hm
        · exact .inr (hI.saved again hpc)
        · exact .inl hm
    | _ => exact .inl hm
  | _ => exact .inl hm

theorem see_safe (hI : Inv p) (h : p.step e = some p') (hS : Safe (p, l)) :
    Safe (p', Ledger.see p l e) ↔ Admits (p, l) e := by
  by_cases hoffer : e = .matcher true
  · subst hoffer
    obtain ⟨again, -, rfl⟩ := step_matcher h
    rw [if_pos rfl, saveAsync_eq hI.len]
    refine forall₂_congr fun m hm => ?_
    change Function.update p.asyncCp (slot p p.nextSequenceId) p.cur (slot p m.id) = m.cur ↔
      (slot p m.id = slot p p.nextSequenceId → m.cur = p.cur)
    by_cases hslot : slot p m.id = slot p p.nextSequenceId
    · have hsaved : Function.update p.asyncCp (slot p p.nextSequenceId) p.cur (slot p m.id) =
          p.cur := by
        rw [hslot, Function.update_self]
      rw [hsaved]
      exact ⟨fun heq _ => heq.symm, fun himp => (himp hslot).symm⟩
    · rw [Function.update_of_ne hslot]
      exact ⟨fun _ heq => absurd heq hslot, fun _ => hS m hm⟩
  · have hadm : Admits (p, l) e := by
      cases e with
      | matcher matched =>
        cases matched with
        | true => exact absurd rfl hoffer
        | false => trivial
      | _ => trivial
    refine ⟨fun _ => hadm, fun _ m hm => ?_⟩
    obtain ⟨hring, hlen⟩ := step_ring h hoffer
    change p'.asyncCp (slot p' m.id) = m.cur
    rw [slot, hring, hlen]
    rcases inflight_see hI h hm with hm | hslot
    · exact hS m hm
    · exact hslot

/-- As long as the ids in flight lie less than `async_len` behind, every offer has a slot of its
own. -/
theorem admits_of_window
    (hwin : ∀ m ∈ l.inflight, m.id < p.nextSequenceId ∧ p.nextSequenceId < m.id + p.asyncLen) :
    Admits (p, l) e := by
  cases e with
  | matcher matched =>
    cases matched with
    | false => trivial
    | true =>
      intro m hm hslot
      obtain ⟨hlt, hlt'⟩ := hwin m hm
      have hdvd : p.asyncLen ∣ p.nextSequenceId - m.id := (Nat.modEq_iff_dvd' hlt.le).mp hslot
      have := Nat.le_of_dvd (by omega) hdvd
      omega
  | _ => trivial

end

theorem init_inv (rq : ReadQueue) {asyncLen : Nat} (hlen : asyncLen ≠ 0) (ti te : Nat)
    (start : CheckpointPair) : Inv (init rq asyncLen ti te start).1 :=
  ⟨hlen, fun _ hpc => nomatch hpc⟩

/-- The slots of the messages in flight are intact all along a run exactly when no offer takes one
of them. -/
theorem ring_safe_iff (rq : ReadQueue) {asyncLen : Nat} (hlen : asyncLen ≠ 0) (ti te : Nat)
    (start : CheckpointPair) (es : List OpEvent) :
    Runs.Always step Safe (init rq asyncLen ti te start) es ↔
      Runs.Meets step Admits (init rq asyncLen ti te start) es := by
  refine Runs.always_iff_meets (I := fun s => Inv s.1) ?_ ?_ (init_inv rq hlen ti te start)
    (fun m hm => nomatch hm) es
  · intro s e s' hI h
    exact step_inv hI (Runs.observe_some.mp h).1
  · rintro ⟨p, l⟩ e ⟨p', l'⟩ hI hS h
    obtain ⟨hp, rfl⟩ := Runs.observe_some.mp h
    exact see_safe hI hp hS

/-! ## Runs -/

/-- As many messages in flight as the ring has slots, or fewer. -/
def Bounded (s : State) : Prop := s.2.inflight.length ≤ s.1.asyncLen

instance : DecidablePred Bounded := fun s =>
  inferInstanceAs (Decidable (s.2.inflight.length ≤ s.1.asyncLen))

instance : DecidablePred Safe := fun s =>
  inferInstanceAs (Decidable (∀ m ∈ s.2.inflight, s.1.asyncCp (slot s.1 m.id) = m.cur))

instance (s : State) : (e : OpEvent) → Decidable (Admits s e)
  | .matcher true =>
    inferInstanceAs (Decidable
      (∀ m ∈ s.2.inflight, slot s.1 m.id = slot s.1 s.1.nextSequenceId → m.cur = s.1.cur))
  | .matcher false | .stop | .head | .openFirst _ | .reset _ _ | .deliver _ _ | .idle | .nothing
  | .callback _ | .pmReturn _ | .ticker _ | .timerReturn _ | .reoffer | .shutdownReturn => isTrue trivial

/-- A message of the input queue up to its verdict. -/
def message (stop : Nat) (r : PmRet) : List OpEvent :=
  [.head, .deliver .input ⟨0, stop⟩, .matcher true, .pmReturn r, .ticker 0]

def opening : List OpEvent := [.head, .openFirst .input, .nothing]

/-- Two messages fill a ring of two; the third one is sent at once. -/
def fullRing : List OpEvent :=
  opening ++ message 100 .async ++ message 200 .async ++ message 300 .sent

theorem ring_unsafe : ¬∀ rq asyncLen ti te start es, asyncLen ≠ 0 →
    Runs.Always step Bounded (init rq asyncLen ti te start) es →
      Runs.Always step Safe (init rq asyncLen ti te start) es := by
  intro h
  have hrun := h .input 2 60 10 ⟨⟨0, 0⟩, ⟨0, 0⟩⟩ fullRing (by decide) (by decide)
  revert hrun
  decide

/-- A ring with a slot to spare. -/
theorem ring_safe_spare :
    Runs.Always step Safe (init .input 3 60 10 ⟨⟨0, 0⟩, ⟨0, 0⟩⟩) fullRing :=
  (ring_safe_iff .input (by decide) 60 10 _ fullRing).mpr (by decide)

end OutputRing

end Hindsight
