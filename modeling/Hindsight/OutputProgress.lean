import Hindsight.Lib.Run
import Hindsight.OutputPlugin

/-!
# Hindsight.OutputProgress

How the checkpoint of an output plugin moves. Three places write `p->cp`: the direct advance, the
end of a batch, and the acknowledgement of an asynchronous message, which takes the position saved
in a slot of the ring `async_cp`. An observer keeps `p->cp` as it was before the last step.

* `Safe`: in a queue whose first file is open `p->cp` did not go back and does not pass `p->cur`.
* `Admits`: a reset of a queue's position goes to no position before one the ring holds for it.
* `progress_safe`: a run keeps `Safe` if all its steps are admitted, and from a step that is not
  admitted on `Safe` can be lost.
-/

namespace Hindsight

namespace OutputProgress

open OutputPlugin

/-- A plugin and what its `cp` was one step earlier. -/
abbrev State := OutputPlugin × CheckpointPair

def see (p : OutputPlugin) (_ : CheckpointPair) (_ : OpEvent) : CheckpointPair := p.cp

def step : State → OpEvent → Option State := Runs.observe OutputPlugin.step see

def Safe (s : State) : Prop :=
  ∀ q, s.1.opened q = true → s.2.get q ≤ s.1.cp.get q ∧ s.1.cp.get q ≤ s.1.cur.get q

/-- The ring holds no position of the queue after the one the reset goes to. -/
def Admits (s : State) : OpEvent → Prop
  | .reset q c => ∀ i < s.1.asyncLen, (s.1.asyncCp i).get q ≤ c
  | _ => True

/-- Neither `cp` nor any slot of the ring is ahead of what was read. -/
structure Inv (p : OutputPlugin) : Prop where
  cp : p.cp ≤ p.cur
  ring : ∀ i < p.asyncLen, p.asyncCp i ≤ p.cur

section

variable {p p' : OutputPlugin} {e : OpEvent}

theorem Inv.of_core (hI : Inv p) (h : p'.core = p.core) : Inv p' ∧ p.cp ≤ p'.cp := by
  simp only [core, Prod.mk.injEq] at h
  obtain ⟨hlen, hring, hcp, hcur, -⟩ := h
  refine ⟨⟨?_, fun i hi => ?_⟩, hcp.ge⟩
  · rw [hcp, hcur]
    exact hI.cp
  · rw [hring, hcur]
    exact hI.ring i (hlen ▸ hi)

theorem Inv.advance (hI : Inv p) (ret : Ret) : Inv (p.advance ret) ∧ p.cp ≤ (p.advance ret).cp := by
  rw [advance_eq]
  split
  · exact ⟨⟨le_refl _, hI.ring⟩, hI.cp⟩
  · exact ⟨hI, le_refl _⟩

theorem Inv.saveAsync (hI : Inv p) : Inv p.saveAsync := by
  unfold OutputPlugin.saveAsync
  split
  · refine ⟨hI.cp, fun i hi => ?_⟩
    change Function.update p.asyncCp (p.nextSequenceId % p.asyncLen) p.cur i ≤ p.cur
    by_cases h : i = p.nextSequenceId % p.asyncLen
    · subst h
      rw [Function.update_self]
    · rw [Function.update_of_ne h]
      exact hI.ring i hi
  · exact hI

/-- What the plugin acknowledges lies between the old checkpoint and what was read. -/
theorem Inv.callback (hI : Inv p) (seq : Nat) :
    Inv (p.updateCheckpointCallback seq) ∧ p.cp ≤ (p.updateCheckpointCallback seq).cp := by
  by_cases h : seq ≠ 0 ∧ p.asyncLen ≠ 0
  · have hslot := hI.ring (seq % p.asyncLen) (Nat.mod_lt _ (Nat.pos_of_ne_zero h.2))
    rw [updateCheckpointCallback_ack h.1 h.2]
    exact ⟨⟨CheckpointPair.merge_le hI.cp hslot, hI.ring⟩, CheckpointPair.le_merge_left _ _⟩
  · rw [updateCheckpointCallback_null h]
    split
    · exact ⟨⟨le_refl _, hI.ring⟩, hI.cp⟩
    · exact ⟨hI, le_refl _⟩

theorem pmReturn_same (p : OutputPlugin) (r : PmRet) :
    (p.pmReturn r).1.cp = p.cp ∧ (p.pmReturn r).1.cur = p.cur ∧
      (p.pmReturn r).1.asyncCp = p.asyncCp ∧ (p.pmReturn r).1.asyncLen = p.asyncLen ∧
      (p.pmReturn r).1.opened = p.opened := by
  cases r with
  | async => simp only [pmReturn]; split <;> exact ⟨rfl, rfl, rfl, rfl, rfl⟩
  | _ => exact ⟨rfl, rfl, rfl, rfl, rfl⟩

theorem Inv.pmReturn (hI : Inv p) (r : PmRet) : Inv (p.pmReturn r).1 := by
  obtain ⟨hcp, hcur, hring, hlen, -⟩ := pmReturn_same p r
  refine ⟨?_, fun i hi => ?_⟩
  · rw [hcp, hcur]
    exact hI.cp
  · rw [hring, hcur]
    exact hI.ring i (hlen ▸ hi)

/-- A position moved for one queue. -/
theorem set_le_set {a b : CheckpointPair} {q : Queue} {c d : Checkpoint} (h : a ≤ b) (hc : c ≤ d) :
    a.set q c ≤ b.set q d := by
  intro r
  by_cases hr : r = q
  · subst hr
    rw [CheckpointPair.get_set_same, CheckpointPair.get_set_same]
    exact hc
  · rw [CheckpointPair.get_set_other _ _ hr, CheckpointPair.get_set_other _ _ hr]
    exact h r

theorem reset_inv {q : Queue} {c : Checkpoint} (hI : Inv p)
    (hadm : ∀ i < p.asyncLen, (p.asyncCp i).get q ≤ c) :
    Inv { p with cur := p.cur.set q c, cp := p.cp.set q c } := by
  refine ⟨set_le_set hI.cp (le_refl c), fun i hi r => ?_⟩
  change (p.asyncCp i).get r ≤ (p.cur.set q c).get r
  by_cases hr : r = q
  · subst hr
    rw [CheckpointPair.get_set_same]
    exact hadm i hi
  · rw [CheckpointPair.get_set_other _ _ hr]
    exact hI.ring i hi r

theorem step_inv {s : CheckpointPair} (hI : Inv p) (hadm : Admits (p, s) e)
    (h : p.step e = some p') : Inv p' := by
  by_cases he : control e = true
  · exact (hI.of_core (step_control h he)).1
  cases e with
  | stop | head | idle | nothing | ticker | timerReturn | reoffer | shutdownReturn =>
    exact absurd rfl he
  | openFirst q =>
    rw [step_openFirst h]
    exact ⟨hI.cp, hI.ring⟩
  | reset q c =>
    rw [(step_reset h).2]
    exact reset_inv hI hadm
  | deliver q c =>
    obtain ⟨-, -, hlt, rfl⟩ := step_deliver h
    have hle := CheckpointPair.le_set hlt.le
    exact ⟨le_trans hI.cp hle, fun i hi => le_trans (hI.ring i hi) hle⟩
  | matcher matched =>
    obtain ⟨again, -, rfl⟩ := step_matcher h
    cases matched with
    | true =>
      have hs := hI.saveAsync
      exact ⟨hs.cp, hs.ring⟩
    | false =>
      have ha := (hI.advance .done).1
      exact ⟨ha.cp, ha.ring⟩
  | callback seq =>
    rw [(step_callback h).2]
    exact (hI.callback seq).1
  | pmReturn r =>
    obtain ⟨again, -, rfl⟩ := step_pmReturn h
    have ha := ((hI.pmReturn r).advance (p.pmReturn r).2).1
    exact ⟨ha.cp, ha.ring⟩

/-- Only a reset moves the checkpoint back, and it does so before the first file is open. -/
theorem step_forward (hI : Inv p) (h : p.step e = some p') (q : Queue)
    (hq : p'.opened q = true) : p.cp.get q ≤ p'.cp.get q := by
  by_cases he : control e = true
  · exact (hI.of_core (step_control h he)).2 q
  cases e with
  | stop | head | idle | nothing | ticker | timerReturn | reoffer | shutdownReturn =>
    exact absurd rfl he
  | openFirst r =>
    rw [step_openFirst h]
  | reset r c =>
    obtain ⟨hr, rfl⟩ := step_reset h
    have hq : p.opened q = true := hq
    have hne : q ≠ r := by
      rintro rfl
      rw [hr] at hq
      cases hq
    exact (CheckpointPair.get_set_other p.cp c hne).ge
  | deliver r c =>
    obtain ⟨-, -, -, rfl⟩ := step_deliver h
    exact le_refl _
  | matcher matched =>
    obtain ⟨again, -, rfl⟩ := step_matcher h
    cases matched with
    | true =>
      change p.cp.get q ≤ p.saveAsync.cp.get q
      unfold OutputPlugin.saveAsync
      split <;> exact le_refl _
    | false => exact (hI.advance .done).2 q
  | callback seq =>
    rw [(step_callback h).2]
    exact (hI.callback seq).2 q
  | pmReturn r =>
    obtain ⟨again, -, rfl⟩ := step_pmReturn h
    have ha := ((hI.pmReturn r).advance (p.pmReturn r).2).2 q
    rw [(pmReturn_same p r).1] at ha
    exact ha

end

/-- A plugin before its first step. -/
def init (rq : ReadQueue) (asyncLen tickerInterval tickerExpires : Nat) (start : CheckpointPair) :
    State :=
  (create rq asyncLen tickerInterval tickerExpires start, start)

theorem init_inv (rq : ReadQueue) (asyncLen tickerInterval tickerExpires : Nat)
    (start : CheckpointPair) :
    Inv (init rq asyncLen tickerInterval tickerExpires start).1 := by
  refine ⟨le_refl _, fun i _ q => ?_⟩
  cases q <;> exact Checkpoint.zero_le _

/-! ## A reset behind the ring -/

theorem runs_observe {p : OutputPlugin} (p' : OutputPlugin) {c : CheckpointPair} {e : OpEvent}
    {es : List OpEvent} {t : State} (h : p.step e = some p') (hr : Runs.run step (p', p.cp) es = some t) :
    Runs.run step (p, c) (e :: es) = some t :=
  Runs.run_observe p' h hr

/-- From inside the loop a stop request takes the plugin to its last timer event. -/
theorem reach_shutdown {p : OutputPlugin} (hpc : p.pc = .body) (c : CheckpointPair) :
    ∃ es t, Runs.run step (p, c) es = some t ∧ t.1.core = p.core ∧ t.1.pc = .shutdown ∧
      t.1.running = p.running := by
  have hhead : ∀ (x : OutputPlugin) (d : CheckpointPair), x.pc = .body → x.localStop = true →
      ∃ t : State, Runs.run step (x, d) [.nothing, .head] = some t ∧ t.1.core = x.core ∧
        t.1.pc = .shutdown ∧ t.1.running = x.running := by
    intro x d hx hl
    refine ⟨({ x with pc := .shutdown }, x.cp), runs_observe { x with pc := .head } ?_
      (runs_observe _ ?_ rfl), rfl, rfl, rfl⟩
    · simp only [OutputPlugin.step, hx, if_true]
    · simp only [OutputPlugin.step, hl, if_true]
  cases hl : p.localStop with
  | true =>
    obtain ⟨t, ht⟩ := hhead p c hpc hl
    exact ⟨_, t, ht⟩
  | false =>
    obtain ⟨t, ht, hrest⟩ := hhead { p with stop := true, localStop := true } p.cp hpc rfl
    refine ⟨.stop :: .nothing :: .head :: [.nothing, .head], t, ?_, hrest⟩
    refine runs_observe { p with stop := true } rfl
      (runs_observe { p with stop := true, pc := .head } ?_
      (runs_observe { p with stop := true, localStop := true } ?_ ht))
    · simp only [OutputPlugin.step, hpc, if_true]
    · simp [OutputPlugin.step, hl, hpc]

/-- After such a reset the plugin can open the file and acknowledge a message whose slot is ahead. -/
theorem lost_of_reset {p p' : OutputPlugin} {q : Queue} {c : Checkpoint} {d : CheckpointPair}
    (hrun : p.running = true) (h : p.step (.reset q c) = some p') {i : Nat} (hi : i < p.asyncLen)
    (hslot : c < (p.asyncCp i).get q) :
    ∃ es t, Runs.run step (p', d) es = some t ∧ ¬Safe t := by
  simp only [OutputPlugin.step, Option.ite_none_right_eq_some, Option.some.injEq] at h
  obtain ⟨⟨hpc, hreads, hopen⟩, rfl⟩ := h
  obtain ⟨es, t, ht, hcore, htpc, htrun⟩ := reach_shutdown (p := { p with
    cur := p.cur.set q c, cp := p.cp.set q c, opened := Function.update p.opened q true })
    hpc (p.cp.set q c)
  simp only [core, Prod.mk.injEq] at hcore
  obtain ⟨hlen, hring, -, hcur, -, -, -, hopened⟩ := hcore
  have hseq : (i + p.asyncLen) % p.asyncLen = i := by
    rw [Nat.add_mod_right, Nat.mod_eq_of_lt hi]
  have hcb : t.1.step (.callback (i + p.asyncLen)) =
      some (t.1.updateCheckpointCallback (i + p.asyncLen)) := by
    simp [OutputPlugin.step, inPlugin, htpc, htrun, hrun]
  refine ⟨.openFirst q :: (es ++ [.callback (i + p.asyncLen)]),
    (t.1.updateCheckpointCallback (i + p.asyncLen), t.1.cp), ?_, fun hS => ?_⟩
  · refine runs_observe { p with
      cur := p.cur.set q c, cp := p.cp.set q c, opened := Function.update p.opened q true } ?_ ?_
    · simp only [OutputPlugin.step, hpc, hreads, hopen, and_self, if_true]
    · rw [Runs.run_append, ht]
      exact runs_observe _ hcb rfl
  · have hne : i + p.asyncLen ≠ 0 := by omega
    have hlen' : t.1.asyncLen ≠ 0 := by
      rw [hlen]
      exact Nat.ne_of_gt (Nat.zero_lt_of_lt hi)
    rw [updateCheckpointCallback_ack hne hlen'] at hS
    have hcp := (hS q (by rw [hopened]; exact Function.update_self _ _ _)).2
    simp only [CheckpointPair.get_merge, hlen, hring, hcur, hseq, CheckpointPair.get_set_same] at hcp
    exact absurd ((le_max_right _ _).trans hcp) (not_le.mpr hslot)

/-- If no reset takes a queue behind a position in the ring, `p->cp` never goes back and never passes
`p->cur` in a queue whose file is open; and after any other reset of a running plugin it can. -/
theorem progress_safe (rq : ReadQueue) (asyncLen tickerInterval tickerExpires : Nat)
    (start : CheckpointPair) :
    (∀ es, Runs.Meets step Admits (init rq asyncLen tickerInterval tickerExpires start) es →
      Runs.Always step Safe (init rq asyncLen tickerInterval tickerExpires start) es) ∧
    ∀ s e s', step s e = some s' → s.1.running = true → ¬Admits s e →
      ∃ fs t, Runs.run step s' fs = some t ∧ ¬Safe t := by
  refine ⟨fun es hm => ?_, ?_⟩
  · have hall := Runs.always_of_meets
      (I := fun s : State => Inv s.1 ∧ ∀ q, s.1.opened q = true → s.2.get q ≤ s.1.cp.get q)
      (fun s e s' hI hc h => ?_) ⟨init_inv rq asyncLen tickerInterval tickerExpires start,
        fun q hq => by cases hq⟩ hm
    · exact hall.mono fun s hI q hq => ⟨hI.2 q hq, hI.1.cp q⟩
    · obtain ⟨hs, hprev⟩ := Runs.observe_some.mp h
      refine ⟨step_inv hI.1 hc hs, fun q hq => ?_⟩
      rw [hprev]
      exact step_forward hI.1 hs q hq
  · rintro ⟨p, d⟩ e ⟨p', d'⟩ h hrun hadm
    obtain ⟨hs, -⟩ := Runs.observe_some.mp h
    cases e with
    | reset q c =>
      simp only [Admits, not_forall, not_le] at hadm
      obtain ⟨i, hi, hslot⟩ := hadm
      exact lost_of_reset hrun hs hi hslot
    | _ => exact absurd trivial hadm

/-- The first files of the analysis queue are gone and the search goes on to file 3, while a message is in
flight; the plugin acknowledges it afterwards. -/
def forwardRun : List OpEvent :=
  [.head, .openFirst .input, .deliver .input ⟨0, 100⟩, .matcher true, .pmReturn .async, .ticker 0,
   .head, .reset .analysis ⟨3, 0⟩, .openFirst .analysis, .idle, .ticker 10, .callback 1]

instance (s : State) : ∀ e, Decidable (Admits s e)
  | .reset q c => inferInstanceAs (Decidable (∀ i < s.1.asyncLen, (s.1.asyncCp i).get q ≤ c))
  | .stop | .head | .openFirst _ | .deliver _ _ | .idle | .nothing | .matcher _ | .callback _ | .pmReturn _
  | .ticker _ | .timerReturn _ | .reoffer | .shutdownReturn => .isTrue trivial

theorem progress_safe_forward :
    Runs.Always step Safe (init .both 2 60 10 ⟨⟨0, 0⟩, ⟨1, 500⟩⟩) forwardRun ∧
      ∃ t, Runs.run step (init .both 2 60 10 ⟨⟨0, 0⟩, ⟨1, 500⟩⟩) forwardRun = some t ∧
        t.1.opened .analysis = true ∧ t.1.cp = ⟨⟨0, 100⟩, ⟨3, 0⟩⟩ ∧ t.1.cur = ⟨⟨0, 100⟩, ⟨3, 0⟩⟩ :=
  ⟨(progress_safe .both 2 60 10 ⟨⟨0, 0⟩, ⟨1, 500⟩⟩).1 forwardRun (by decide +kernel), _, rfl, rfl, rfl, rfl⟩

/-- The analysis queue was emptied and starts again at file 0; the plugin has a message in flight and
acknowledges it after the reset. -/
def resetRun : List OpEvent :=
  [.head, .openFirst .input, .deliver .input ⟨0, 100⟩, .matcher true, .pmReturn .async, .ticker 0,
   .head, .reset .analysis ⟨0, 0⟩, .openFirst .analysis, .idle, .ticker 10, .callback 1]

theorem progress_unsafe : ¬∀ rq asyncLen ti te start es,
    Runs.Always step Safe (init rq asyncLen ti te start) es := by
  intro h
  obtain ⟨t, hrun, hopen, hcp, hcur⟩ : ∃ t,
      Runs.run step (init .both 2 60 10 ⟨⟨0, 0⟩, ⟨10, 500⟩⟩) resetRun = some t ∧
        t.1.opened .analysis = true ∧ t.1.cp.analysis = ⟨10, 500⟩ ∧ t.1.cur.analysis = ⟨0, 0⟩ :=
    ⟨_, rfl, rfl, rfl, rfl⟩
  have hle : t.1.cp.analysis ≤ t.1.cur.analysis :=
    (((h _ _ _ _ _ _).run hrun) .analysis hopen).2
  rw [hcp, hcur] at hle
  exact absurd hle (by decide)

end OutputProgress

end Hindsight
