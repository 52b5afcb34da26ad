import Hindsight.OutputProgress
import Hindsight.OutputRing

/-!
# Hindsight.OutputCatchUp

When the checkpoint of an asynchronous output plugin reaches the last position read. The code takes
the difference of `sequence_id` and `ack_sequence_id` for the messages in flight. An observer keeps
those messages as in `OutputRing`, the verdict on the current message, the ring slots the message was
saved in, and whether something has brought `p->cp` up to it.

* `Safe`: when a message is finished with an answer other than `RETRY`, `ASYNC` and a fatal error,
  no message is in flight and no batch is open, `p->cp` is `p->cur`.
* `Admits`: such a message was answered when its id was the last one acknowledged, or rejected when nothing
  was pending, or an acknowledgement made since it was offered used a slot it was saved in, or a batch was
  committed.
* `catchUp_iff`: in a run whose resets do not go behind the ring, `Safe` is kept exactly when all
  steps are admitted.
-/

namespace Hindsight

namespace OutputCatchUp

open OutputPlugin OutputRing

structure Ledger where
  ring : OutputRing.Ledger
  /-- What `process_message` returned for the current message; `none` when the matcher rejected
  it. -/
  answer : Option PmRet
  /-- The slots the current message was saved in. -/
  mine : List Nat
  /-- Since the current message was taken up, something happened that brings `p->cp` up to it. -/
  caught : Bool
  /-- The last step ended the handling of a message with nothing left pending. -/
  finished : Bool
  deriving DecidableEq, Repr

/-- The current message has an answer that asks for nothing more, no message is in flight and no
batch is open. -/
def settled (p : OutputPlugin) (l : Ledger) : Bool :=
  p.msg.isSome && l.answer != some .async && l.ring.inflight.isEmpty && !p.batching

/-- The event lets `output_message` return on such a message. -/
def ends (p : OutputPlugin) (l : Ledger) : OpEvent → Bool
  | .ticker now =>
    match p.pc with
    | .ticker _ .done => !(p.tickerInterval != 0 && now ≥ p.tickerExpires) && settled p l
    | _ => false
  | .timerReturn false =>
    match p.pc with
    | .timer _ .done _ => settled p l
    | _ => false
  | _ => false

/-- `sequence_id`, with the message counted, is `ack_sequence_id` already, and no batch is open. -/
def acknowledged (p : OutputPlugin) : PmRet → Bool
  | .sent => p.nextSequenceId == p.ackSequenceId
  | .fail | .skip | .async => p.nextSequenceId == p.ackSequenceId && !p.batching
  | .batch | .retry | .fatal => false

namespace Ledger

/-- What happens to the current message. -/
def mark (p : OutputPlugin) (l : Ledger) : OpEvent → Ledger
  | .deliver _ _ => { l with answer := none, mine := [], caught := false }
  | .matcher true => { l with mine := slot p p.nextSequenceId :: l.mine }
  | .matcher false => { l with answer := none, caught := l.caught || p.advances .done }
  | .callback seq =>
    if seq = 0 then { l with caught := l.caught || p.batching }
    else { l with caught := l.caught || slot p seq ∈ l.mine }
  | .pmReturn r => { l with answer := some r, caught := l.caught || acknowledged p r }
  | _ => l

/-- The observer. -/
def see (p : OutputPlugin) (l : Ledger) (e : OpEvent) : Ledger :=
  { l.mark p e with ring := OutputRing.Ledger.see p l.ring e, finished := ends p l e }

end Ledger

abbrev State := OutputPlugin × Ledger

def step : State → OpEvent → Option State := Runs.observe OutputPlugin.step Ledger.see

def init (rq : ReadQueue) (asyncLen tickerInterval tickerExpires : Nat)
    (start : CheckpointPair) : State :=
  (OutputPlugin.create rq asyncLen tickerInterval tickerExpires start,
    ⟨⟨[], false⟩, none, [], false, false⟩)

def Safe (s : State) : Prop := s.2.finished = true → s.1.cp = s.1.cur

def Admits (s : State) (e : OpEvent) : Prop := ends s.1 s.2 e = true → s.2.caught = true

/-- A reset goes to no position before one the ring holds. -/
def Resets (s : State) (e : OpEvent) : Prop := OutputProgress.Admits (s.1, s.1.cp) e

/-- The thread is inside `output_message` or its retry loop. -/
def handling (p : OutputPlugin) : Bool :=
  match p.pc with
  | .offer _ | .process _ | .ticker _ _ | .timer _ _ _ | .retry => true
  | _ => false

/-- Of the message in hand: the checkpoint has reached it, or lies before it as the ring does outside
the slots it was saved in. -/
structure Facing (p : OutputPlugin) (l : Ledger) (m : Msg) : Prop where
  caught : l.caught = true → p.cp = p.cur
  behind : l.caught = false → p.cp.get m.queue < p.cur.get m.queue
  mine : ∀ i ∈ l.mine, p.asyncCp i = p.cur
  others : ∀ i < p.asyncLen, i ∉ l.mine → (p.asyncCp i).get m.queue < p.cur.get m.queue

structure Inv (p : OutputPlugin) (l : Ledger) : Prop where
  len : p.asyncLen ≠ 0
  progress : OutputProgress.Inv p
  facing : handling p = true → ∀ m, p.msg = some m → Facing p l m

section

variable {p p' : OutputPlugin} {l : Ledger} {e : OpEvent} {m : Msg}

theorem Facing.caught_iff (hF : Facing p l m) : l.caught = true ↔ p.cp = p.cur := by
  refine ⟨hF.caught, fun heq => ?_⟩
  by_contra hc
  have hlt := hF.behind (Bool.not_eq_true _ ▸ hc)
  rw [heq] at hlt
  exact lt_irrefl _ hlt

/-- A step that moves neither the positions nor the ring. -/
theorem Facing.same (hF : Facing p l m) (hcp : p'.cp = p.cp) (hcur : p'.cur = p.cur)
    (hring : p'.asyncCp = p.asyncCp) (hlen : p'.asyncLen = p.asyncLen) {l' : Ledger}
    (hcaught : l'.caught = l.caught) (hmine : l'.mine = l.mine) : Facing p' l' m := by
  refine ⟨fun h => ?_, fun h => ?_, fun i hi => ?_, fun i hi hn => ?_⟩
  · rw [hcp, hcur]
    exact hF.caught (hcaught ▸ h)
  · rw [hcp, hcur]
    exact hF.behind (hcaught ▸ h)
  · rw [hring, hcur]
    exact hF.mine i (hmine ▸ hi)
  · rw [hring, hcur]
    exact hF.others i (hlen ▸ hi) (hmine ▸ hn)

/-- A step that may bring the checkpoint up to the last position read. -/
theorem Facing.advance (hF : Facing p l m) {b : Bool} (hcp : p'.cp = if b then p.cur else p.cp)
    (hcur : p'.cur = p.cur) (hring : p'.asyncCp = p.asyncCp) (hlen : p'.asyncLen = p.asyncLen)
    {l' : Ledger} (hcaught : l'.caught = (l.caught || b)) (hmine : l'.mine = l.mine) :
    Facing p' l' m := by
  cases b with
  | false =>
    rw [Bool.or_false] at hcaught
    exact hF.same hcp hcur hring hlen hcaught hmine
  | true =>
    rw [Bool.or_true] at hcaught
    refine ⟨fun _ => ?_, fun h => ?_, fun i hi => ?_, fun i hi hn => ?_⟩
    · rw [hcp, hcur]
      rfl
    · rw [hcaught] at h
      cases h
    · rw [hring, hcur]
      exact hF.mine i (hmine ▸ hi)
    · rw [hring, hcur]
      exact hF.others i (hlen ▸ hi) (hmine ▸ hn)

/-! ## The message in hand, event by event -/

theorem finish_handling {again : Bool} {ret : Ret} (h : handling (p.finish again ret) = true) :
    (p.finish again ret).msg = p.msg := by
  unfold finish at h ⊢
  cases hm : p.msg with
  | none =>
    simp only [hm] at h
    cases h
  | some m =>
    simp only [hm] at h ⊢
    cases ret with
    | done => cases h
    | fatal => rfl
    | retry =>
      simp only at h ⊢
      split <;> split <;> simp_all [handling]

/-- No control event takes up a message. -/
theorem control_handling (h : p.step e = some p') (he : control e = true)
    (hh : handling p' = true) (hm : p'.msg = some m) : handling p = true ∧ p.msg = some m := by
  cases control_cases h he with
  | stop => exact ⟨hh, hm⟩
  | leave | enter | nothing | shutdownReturn => cases hh
  | idle => cases hm
  | reoffer hpc => exact ⟨by simp [handling, hpc], hm⟩
  | timer hpc => exact ⟨by simp [handling, hpc], hm⟩
  | finish hpc =>
    rw [finish_handling hh] at hm
    exact ⟨by simp [handling, hpc], hm⟩
  | timerReturn hpc fatal =>
    rw [finish_handling hh] at hm
    exact ⟨by simp [handling, hpc], hm⟩

theorem deliver_facing {q : Queue} {c : Checkpoint} (hI : Inv p l)
    (h : p.step (.deliver q c) = some p') :
    Facing p' (Ledger.see p l (.deliver q c)) ⟨q, c⟩ := by
  obtain ⟨-, -, hlt, rfl⟩ := step_deliver h
  have hcur : (p.cur.set q c).get q = c := CheckpointPair.get_set_same _ _ _
  refine ⟨fun h => (by cases h), fun _ => ?_, fun i hi => (by cases hi), fun i hi _ => ?_⟩
  · change p.cp.get q < (p.cur.set q c).get q
    rw [hcur]
    exact lt_of_le_of_lt (hI.progress.cp q) hlt
  · change (p.asyncCp i).get q < (p.cur.set q c).get q
    rw [hcur]
    exact lt_of_le_of_lt (hI.progress.ring i hi q) hlt

theorem offer_facing {again : Bool} (hlen : p.asyncLen ≠ 0) (hF : Facing p l m) :
    Facing { p.saveAsync with pc := .process again } (Ledger.see p l (.matcher true)) m := by
  rw [saveAsync_eq hlen]
  refine ⟨hF.caught, hF.behind, fun i hi => ?_, fun i hi hn => ?_⟩
  · change Function.update p.asyncCp (slot p p.nextSequenceId) p.cur i = p.cur
    by_cases heq : i = slot p p.nextSequenceId
    · rw [heq, Function.update_self]
    · rw [Function.update_of_ne heq]
      exact hF.mine i ((List.mem_cons.mp hi).resolve_left heq)
  · obtain ⟨hne, hn⟩ := not_or.mp (mt List.mem_cons.mpr hn)
    change (Function.update p.asyncCp (slot p p.nextSequenceId) p.cur i).get m.queue < _
    rw [Function.update_of_ne hne]
    exact hF.others i hi hn

/-- An acknowledgement takes over one slot: one of the message's own, or one behind it. -/
theorem ack_facing {seq : Nat} (hI : Inv p l) (hseq : seq ≠ 0) (hF : Facing p l m) :
    Facing (p.updateCheckpointCallback seq) (Ledger.see p l (.callback seq)) m := by
  have hslot : slot p seq < p.asyncLen := Nat.mod_lt _ (Nat.pos_of_ne_zero hI.len)
  have hcaught : (Ledger.see p l (.callback seq)).caught = (l.caught || slot p seq ∈ l.mine) := by
    simp only [Ledger.see, Ledger.mark, if_neg hseq]
  have hmine : (Ledger.see p l (.callback seq)).mine = l.mine := by
    simp only [Ledger.see, Ledger.mark, if_neg hseq]
  rw [updateCheckpointCallback_ack hseq hI.len]
  change Facing { p with ackSequenceId := _, cp := p.cp.merge (p.asyncCp (slot p seq)) } _ m
  refine ⟨fun h => ?_, fun h => ?_, fun i hi => ?_, fun i hi hn => ?_⟩
  · change p.cp.merge (p.asyncCp (slot p seq)) = p.cur
    refine le_antisymm (CheckpointPair.merge_le hI.progress.cp (hI.progress.ring _ hslot)) ?_
    rw [hcaught, Bool.or_eq_true, decide_eq_true_eq] at h
    rcases h with h | h
    · rw [hF.caught h]
      exact CheckpointPair.le_merge_left _ _
    · rw [hF.mine _ h]
      exact CheckpointPair.le_merge_right _ _
  · rw [hcaught, Bool.or_eq_false_iff, decide_eq_false_iff_not] at h
    change (p.cp.merge (p.asyncCp (slot p seq))).get m.queue < _
    rw [CheckpointPair.get_merge]
    exact max_lt (hF.behind h.1) (hF.others _ hslot h.2)
  · exact hF.mine i (hmine ▸ hi)
  · exact hF.others i hi (hmine ▸ hn)

theorem commit_facing (hF : Facing p l m) :
    Facing (p.updateCheckpointCallback 0) (Ledger.see p l (.callback 0)) m := by
  rw [updateCheckpointCallback_null (by simp)]
  refine hF.advance (b := p.batching) ?_ ?_ ?_ ?_ rfl rfl <;> split <;> simp_all

theorem advance_facing (hF : Facing p l m) (ret : Ret) {pc : OpPc} {l' : Ledger}
    (hcaught : l'.caught = (l.caught || p.advances ret)) (hmine : l'.mine = l.mine) :
    Facing { p.advance ret with pc := pc } l' m := by
  refine hF.advance (b := p.advances ret) ?_ ?_ ?_ ?_ hcaught hmine <;> rw [advance_eq] <;> split <;>
    simp_all

theorem pmReturn_advances (hlen : p.asyncLen ≠ 0) (r : PmRet) :
    (p.pmReturn r).1.advances (p.pmReturn r).2 = acknowledged p r := by
  have hbeq : (p.asyncLen == 0) = false := beq_eq_false_iff_ne.mpr hlen
  have hasync : p.pmReturn .async = ({ p with sequenceId := p.nextSequenceId }, .done) := if_neg hlen
  cases r with
  | batch | retry | fatal => rfl
  | async =>
    rw [hasync]
    simp [advances, pending, acknowledged, hbeq, bne, Bool.and_comm]
  | sent | fail | skip =>
    simp [pmReturn, advances, pending, acknowledged, hbeq, bne, Bool.and_comm]

theorem pmReturn_facing (hlen : p.asyncLen ≠ 0) (hF : Facing p l m) (r : PmRet) {pc : OpPc} :
    Facing { (p.pmReturn r).1.advance (p.pmReturn r).2 with pc := pc }
      (Ledger.see p l (.pmReturn r)) m := by
  obtain ⟨hcp, hcur, hring, hsame, -⟩ := OutputProgress.pmReturn_same p r
  have hF' : Facing (p.pmReturn r).1 l m := hF.same hcp hcur hring hsame rfl rfl
  have hcaught : (Ledger.see p l (.pmReturn r)).caught =
      (l.caught || (p.pmReturn r).1.advances (p.pmReturn r).2) := by
    rw [pmReturn_advances hlen]
    rfl
  exact advance_facing hF' _ hcaught rfl

/-! ## Steps -/

theorem asyncLen_step (h : p.step e = some p') : p'.asyncLen = p.asyncLen := by
  by_cases hoffer : e = .matcher true
  · subst hoffer
    obtain ⟨again, -, rfl⟩ := step_matcher h
    rw [if_pos rfl]
    change p.saveAsync.asyncLen = p.asyncLen
    unfold saveAsync
    split <;> rfl
  · exact (step_ring h hoffer).2

theorem facing_step (hI : Inv p l) (h : p.step e = some p') (hh : handling p' = true)
    (hm : p'.msg = some m) : Facing p' (Ledger.see p l e) m := by
  by_cases hctl : control e = true
  · obtain ⟨hh0, hm0⟩ := control_handling h hctl hh hm
    have hcore := step_control h hctl
    simp only [core, Prod.mk.injEq] at hcore
    obtain ⟨hlen, hring, hcp, hcur, -⟩ := hcore
    refine (hI.facing hh0 m hm0).same hcp hcur hring hlen ?_ ?_ <;> cases e <;>
      first | rfl | cases hctl
  cases e with
  | stop | head | idle | nothing | ticker | timerReturn | reoffer | shutdownReturn =>
    exact absurd rfl hctl
  | openFirst q | reset q c =>
    simp only [OutputPlugin.step, Option.ite_none_right_eq_some, Option.some.injEq] at h
    obtain ⟨⟨hpc, -⟩, rfl⟩ := h
    simp only [handling, hpc] at hh
    cases hh
  | deliver q c =>
    obtain ⟨-, -, -, hp⟩ := step_deliver h
    rw [hp] at hm
    cases hm
    exact deliver_facing hI h
  | callback seq =>
    rw [(step_callback h).2] at hh hm ⊢
    obtain ⟨hpc, -, hmsg⟩ := updateCheckpointCallback_thread p seq
    rw [handling, hpc] at hh
    have hF := hI.facing hh m (hmsg ▸ hm)
    by_cases hseq : seq = 0
    · subst hseq
      exact commit_facing hF
    · exact ack_facing hI hseq hF
  | matcher matched =>
    obtain ⟨again, hpc, rfl⟩ := step_matcher h
    have hh0 : handling p = true := by simp [handling, hpc]
    cases matched with
    | true => exact offer_facing hI.len (hI.facing hh0 m ((msg_saveAsync p).symm.trans hm))
    | false => exact advance_facing (hI.facing hh0 m ((msg_advance p _).symm.trans hm)) .done rfl rfl
  | pmReturn r =>
    obtain ⟨again, hpc, rfl⟩ := step_pmReturn h
    have hh0 : handling p = true := by simp [handling, hpc]
    have hm0 : p.msg = some m := by
      rw [← (pmReturn_thread p r).1, ← msg_advance _ (p.pmReturn r).2]
      exact hm
    exact pmReturn_facing hI.len (hI.facing hh0 m hm0) r

theorem step_inv {c : CheckpointPair} (hI : Inv p l) (hres : OutputProgress.Admits (p, c) e)
    (h : p.step e = some p') : Inv p' (Ledger.see p l e) :=
  ⟨asyncLen_step h ▸ hI.len, OutputProgress.step_inv hI.progress hres h,
    fun hh _ hm => facing_step hI h hh hm⟩

/-- Where the handling of a message ends, the message is in hand, and the return moves nothing. -/
theorem ends_handling (h : p.step e = some p') (hends : ends p l e = true) :
    handling p = true ∧ p.msg ≠ none ∧ p'.core = p.core := by
  have hctl : control e = true := by
    cases e <;> first | rfl | cases hends
  have hsettled : handling p = true ∧ settled p l = true := by
    cases e with
    | ticker now =>
      simp only [ends] at hends
      split at hends
      · rename_i hpc
        rw [Bool.and_eq_true] at hends
        exact ⟨by simp [handling, hpc], hends.2⟩
      · cases hends
    | timerReturn fatal =>
      cases fatal with
      | true => cases hends
      | false =>
        simp only [ends] at hends
        split at hends
        · rename_i hpc
          exact ⟨by simp [handling, hpc], hends⟩
        · cases hends
    | _ => cases hends
  refine ⟨hsettled.1, fun hm => ?_, step_control h hctl⟩
  have := hsettled.2
  simp [settled, hm] at this

theorem see_safe (hI : Inv p l) (h : p.step e = some p') :
    Safe (p', Ledger.see p l e) ↔ Admits (p, l) e := by
  change (ends p l e = true → p'.cp = p'.cur) ↔ (ends p l e = true → l.caught = true)
  refine forall_congr' fun hends => ?_
  obtain ⟨hh, hm, hcore⟩ := ends_handling h hends
  simp only [core, Prod.mk.injEq] at hcore
  obtain ⟨-, -, hcp, hcur, -⟩ := hcore
  obtain ⟨m, hm⟩ := Option.ne_none_iff_exists'.mp hm
  rw [(hI.facing hh m hm).caught_iff, hcp, hcur]

end

theorem init_inv (rq : ReadQueue) {asyncLen : Nat} (hlen : asyncLen ≠ 0) (ti te : Nat)
    (start : CheckpointPair) :
    Inv (init rq asyncLen ti te start).1 (init rq asyncLen ti te start).2 :=
  ⟨hlen, OutputProgress.init_inv rq asyncLen ti te start, fun hh => nomatch hh⟩

/-- In a run whose resets do not go behind the ring, the checkpoint catches up at the end of every
message that leaves nothing pending exactly when each of these messages was caught up with. -/
theorem catchUp_iff (rq : ReadQueue) {asyncLen : Nat} (hlen : asyncLen ≠ 0) (ti te : Nat)
    (start : CheckpointPair) {es : List OpEvent}
    (hres : Runs.Meets step Resets (init rq asyncLen ti te start) es) :
    Runs.Always step Safe (init rq asyncLen ti te start) es ↔
      Runs.Meets step Admits (init rq asyncLen ti te start) es := by
  refine Runs.always_iff_meets_of (I := fun s => Inv s.1 s.2) ?_ ?_ (init_inv rq hlen ti te start)
    (fun h => nomatch h) hres
  · rintro ⟨p, l⟩ e ⟨p', l'⟩ hI hr h
    obtain ⟨hp, rfl⟩ := Runs.observe_some.mp h
    exact step_inv hI hr hp
  · rintro ⟨p, l⟩ e ⟨p', l'⟩ hI _ _ h
    obtain ⟨hp, rfl⟩ := Runs.observe_some.mp h
    exact see_safe hI hp

/-! ## Runs -/

/-- What the plugin may do: acknowledge a message in flight, or once the one it is processing;
return anything but `BATCH` and a fatal error. -/
def allowed (s : State) : OpEvent → Bool
  | .callback seq =>
    s.2.ring.inflight.any (fun m => m.id == seq) ||
      match s.1.pc with
      | .process _ => seq == s.1.nextSequenceId && !s.2.ring.early
      | _ => false
  | .pmReturn .batch | .pmReturn .fatal | .timerReturn true => false
  | _ => true

instance : DecidablePred Safe := fun s =>
  inferInstanceAs (Decidable (s.2.finished = true → s.1.cp = s.1.cur))

instance (s : State) (e : OpEvent) : Decidable (Admits s e) :=
  inferInstanceAs (Decidable (ends s.1 s.2 e = true → s.2.caught = true))

instance (s : State) : (e : OpEvent) → Decidable (Resets s e)
  | .reset q c => inferInstanceAs (Decidable (∀ i < s.1.asyncLen, (s.1.asyncCp i).get q ≤ c))
  | .stop | .head | .openFirst _ | .deliver _ _ | .idle | .nothing | .matcher _ | .callback _ | .pmReturn _
  | .ticker _ | .timerReturn _ | .reoffer | .shutdownReturn => isTrue trivial

/-- The first message is sent asynchronously and acknowledged by the timer event; the second one is
sent at once. -/
def mixedRun : List OpEvent :=
  opening ++
    [.head, .deliver .input ⟨0, 100⟩, .matcher true, .pmReturn .async, .ticker 10, .callback 1,
     .timerReturn false] ++ message 200 .sent

theorem catchUp_fails : ¬∀ rq asyncLen ti te start es, asyncLen ≠ 0 →
    Runs.Meets step (fun s e => allowed s e = true) (init rq asyncLen ti te start) es →
    (Runs.run step (init rq asyncLen ti te start) es).map (·.2.ring.inflight) = some [] →
      Runs.Always step Safe (init rq asyncLen ti te start) es := by
  intro h
  have hrun := h .input 2 60 10 ⟨⟨0, 0⟩, ⟨0, 0⟩⟩ mixedRun (by decide) (by decide) (by decide)
  revert hrun
  decide

/-- A second message that the matcher rejects. -/
def rejectedRun : List OpEvent :=
  opening ++
    [.head, .deliver .input ⟨0, 100⟩, .matcher true, .pmReturn .async, .ticker 10, .callback 1,
     .timerReturn false, .head, .deliver .input ⟨0, 200⟩, .matcher false, .ticker 11]

theorem catchUp_rejected :
    Runs.Always step Safe (init .input 2 60 10 ⟨⟨0, 0⟩, ⟨0, 0⟩⟩) rejectedRun :=
  (catchUp_iff .input (by decide) 60 10 _ (by decide)).mpr (by decide)

end OutputCatchUp

end Hindsight
