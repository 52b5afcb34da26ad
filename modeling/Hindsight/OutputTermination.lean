import Hindsight.Lib.Run
import Hindsight.OutputPlugin

/-!
# Hindsight.OutputTermination

What a fatal result of an output plugin leads to: `process_message` or a periodic `timer_event`
returns a positive value, on a delivered message, during a retry or on an idle poll. The end of
`input_thread` stores the checkpoints and then takes one of two ways: a stopped thread just ends, a
terminated one saves the error, leaves the list and honours `shutdown_terminate`. An observer
remembers a fatal result and keeps what the end of the thread left behind. The keys of the plugin's
entries in the store fit the buffer of `remove_checkpoint_q`; longer ones are in
`Hindsight.CheckpointRemoval`.

* `Safe`: after a fatal result no message and no timer is evaluated, and the thread ends the way a
  terminated one does.
* `Admits`: a fatal result comes from a call on a message in hand, before the thread has read `stop`.
* `fatal_terminates`: a run keeps `Safe` if all its steps are admitted, and after a step that is not
  admitted the thread can end without having terminated.
-/

namespace Hindsight

namespace OutputTermination

open OutputPlugin

/-- The options of the plugin that its end depends on. -/
structure Options where
  rmCpTerminate : Bool
  shutdownTerminate : Bool
  deriving DecidableEq, Repr

/-- What the plugin's end leaves behind: its checkpoints in the store, the error file, the entry of
the list, the signal to the process. -/
structure Remains where
  stored : Queue → Option Checkpoint
  errSaved : Bool
  listed : Bool
  signalled : Bool

def Remains.start : Remains := ⟨fun _ => none, false, true, false⟩

/-- `hs_update_input_checkpoint` for the queues the plugin reads. -/
def Remains.store (r : Remains) (p : OutputPlugin) : Remains :=
  { r with stored := fun q => if p.readQueue.reads q then some (p.cp.get q) else r.stored q }

/-- `remove_checkpoint_q`. -/
def Remains.remove (r : Remains) (p : OutputPlugin) : Remains :=
  { r with stored := fun q => if p.readQueue.reads q then none else r.stored q }

/-- The end of `input_thread` after its loop and the last timer event. -/
def leave (o : Options) (p : OutputPlugin) (r : Remains) : Remains :=
  let r := r.store p
  if p.localStop then r
  else
    let r := { r with errSaved := true }
    let r := if o.rmCpTerminate then r.remove p else r
    { r with listed := false, signalled := r.signalled || o.shutdownTerminate }

/-- `fatal`: some call has returned a fatal result. -/
structure Ledger where
  fatal : Bool
  remains : Remains

/-- A call of the sandbox returns a fatal result. `ASYNC` without a buffer is turned into one. -/
def returnsFatal (p : OutputPlugin) : OpEvent → Bool
  | .pmReturn r => (p.pmReturn r).2 == .fatal
  | .timerReturn b => b
  | _ => false

/-- The observer. -/
def Ledger.see (o : Options) (p : OutputPlugin) (l : Ledger) (e : OpEvent) : Ledger where
  fatal := l.fatal || returnsFatal p e
  remains :=
    match e with
    | .shutdownReturn => leave o p l.remains
    | _ => l.remains

abbrev State := OutputPlugin × Ledger

def step (o : Options) : State → OpEvent → Option State :=
  Runs.observe OutputPlugin.step (Ledger.see o)

def init (rq : ReadQueue) (asyncLen tickerInterval tickerExpires : Nat)
    (start : CheckpointPair) : State :=
  (OutputPlugin.create rq asyncLen tickerInterval tickerExpires start, ⟨false, .start⟩)

/-- The matcher, `process_message` or a periodic `timer_event` is being called. -/
def evaluating (p : OutputPlugin) : Bool :=
  match p.pc with
  | .offer _ | .process _ | .timer _ _ _ => true
  | _ => false

/-- The checkpoints are stored, or removed again where that is asked for, the error is saved, the
plugin is off the list and the process is signalled if it is to end with the plugin. -/
structure Terminated (o : Options) (p : OutputPlugin) (r : Remains) : Prop where
  stored : ∀ q, p.readQueue.reads q = true →
    r.stored q = if o.rmCpTerminate then none else some (p.cp.get q)
  errSaved : r.errSaved = true
  unlisted : r.listed = false
  signalled : o.shutdownTerminate = true → r.signalled = true

def Safe (o : Options) (s : State) : Prop :=
  s.2.fatal = true →
    evaluating s.1 = false ∧ (s.1.pc = .exited → Terminated o s.1 s.2.remains)

def Admits (s : State) (e : OpEvent) : Prop :=
  returnsFatal s.1 e = true → s.1.msg ≠ none ∧ s.1.localStop = false

/-- A thread with a fatal result is on its way out, or out. -/
inductive Doomed (o : Options) : OutputPlugin → Remains → Prop
  | returning {p r} (again : Bool) : p.pc = .ticker again .fatal → p.msg ≠ none →
      p.localStop = false → Doomed o p r
  | leaving {p r} : p.pc = .shutdown → p.localStop = false → Doomed o p r
  | gone {p r} : p.pc = .exited → Terminated o p r → Doomed o p r

/-- What holds in every run. -/
structure Base (p : OutputPlugin) (l : Ledger) : Prop where
  busy : current p = true → p.msg ≠ none
  unsaved : p.pc ≠ .exited → l.remains.errSaved = false

structure Inv (o : Options) (p : OutputPlugin) (l : Ledger) : Prop extends Base p l where
  doomed : l.fatal = true → Doomed o p l.remains

section

variable {o : Options} {p p' : OutputPlugin} {l : Ledger} {e : OpEvent}

theorem Inv.safe (hI : Inv o p l) : Safe o (p, l) := by
  intro hf
  cases hI.doomed hf with
  | returning again hpc =>
    refine ⟨by simp [evaluating, hpc], fun hx => ?_⟩
    cases hpc.symm.trans hx
  | leaving hpc =>
    refine ⟨by simp [evaluating, hpc], fun hx => ?_⟩
    cases hpc.symm.trans hx
  | gone hpc ht => exact ⟨by simp [evaluating, hpc], fun _ => ht⟩

/-- A thread that has not read `stop` ends the way a terminated one does. -/
theorem leave_terminated (r : Remains) (hstop : p.localStop = false) (hpc : p' = { p with pc := .exited }) :
    Terminated o p' (leave o p r) := by
  subst hpc
  unfold leave
  rw [hstop]
  refine ⟨fun q hq => ?_, ?_, rfl, fun hs => ?_⟩
  · have hq : p.readQueue.reads q = true := hq
    cases o.rmCpTerminate <;> simp [Remains.remove, Remains.store, hq]
  · cases o.rmCpTerminate <;> rfl
  · simp [hs]

/-- A stopped thread saves no error. -/
theorem leave_stopped (r : Remains) (hstop : p.localStop = true) :
    (leave o p r).errSaved = r.errSaved := by
  unfold leave
  rw [hstop]
  rfl

theorem finish_fatal (hm : p.msg ≠ none) (again : Bool) :
    p.finish again .fatal = { p with pc := .shutdown } := by
  obtain ⟨m, hm⟩ := Option.ne_none_iff_exists'.mp hm
  simp only [finish, hm]

theorem advance_fatal (p : OutputPlugin) : p.advance .fatal = p :=
  if_neg (by simp [advances])

/-- What a doomed thread can still do. -/
theorem Doomed.step (hD : Doomed o p l.remains) (h : p.step e = some p') :
    Doomed o p' (l.see o p e).remains := by
  cases hD with
  | returning again hpc hm hstop =>
    cases e with
    | stop =>
      cases h
      exact .returning again hpc hm hstop
    | ticker now =>
      simp only [OutputPlugin.step, hpc, ne_eq, not_true_eq_false, false_and, if_false] at h
      cases h
      rw [finish_fatal hm]
      exact .leaving rfl hstop
    | callback seq => simp [OutputPlugin.step, inPlugin, hpc] at h
    | _ => simp [OutputPlugin.step, hpc] at h
  | leaving hpc hstop =>
    cases e with
    | stop =>
      cases h
      exact .leaving hpc hstop
    | callback seq =>
      rw [(step_callback h).2]
      refine .leaving ?_ ?_
      · rw [(updateCheckpointCallback_thread p seq).1]
        exact hpc
      · rw [(updateCheckpointCallback_thread p seq).2.1]
        exact hstop
    | shutdownReturn =>
      simp only [OutputPlugin.step, hpc, if_true] at h
      cases h
      exact .gone rfl (leave_terminated _ hstop rfl)
    | _ => simp [OutputPlugin.step, hpc] at h
  | gone hpc ht =>
    cases e with
    | stop =>
      cases h
      exact .gone hpc ⟨ht.stored, ht.errSaved, ht.unlisted, ht.signalled⟩
    | callback seq => simp [OutputPlugin.step, inPlugin, hpc] at h
    | _ => simp [OutputPlugin.step, hpc] at h

/-- A fatal result on a message in hand puts the thread on its way out. -/
theorem doomed_of_fatal {r : Remains} (h : p.step e = some p') (hf : returnsFatal p e = true)
    (hm : p.msg ≠ none) (hstop : p.localStop = false) : Doomed o p' r := by
  cases e with
  | pmReturn v =>
    obtain ⟨again, -, rfl⟩ := step_pmReturn h
    have hret : (p.pmReturn v).2 = .fatal := beq_iff_eq.mp hf
    obtain ⟨hmsg, hlocal⟩ := pmReturn_thread p v
    rw [hret, advance_fatal]
    exact .returning again rfl (by rw [hmsg]; exact hm) (by rw [hlocal]; exact hstop)
  | timerReturn b =>
    cases b with
    | false => cases hf
    | true =>
      simp only [OutputPlugin.step] at h
      split at h
      · cases h
        simp only [if_true]
        rw [finish_fatal (by exact hm)]
        exact .leaving rfl hstop
      · cases h
  | _ => cases hf

theorem pc_exited (h : p.step e = some p') (hpc : p.pc = .exited) : p'.pc = .exited := by
  cases e with
  | stop =>
    cases h
    exact hpc
  | callback seq => simp [OutputPlugin.step, inPlugin, hpc] at h
  | _ => simp [OutputPlugin.step, hpc] at h

/-- The error is saved by the end of the thread only. -/
theorem base_step (hB : Base p l) (h : p.step e = some p') : Base p' (l.see o p e) := by
  refine ⟨step_busy hB.busy h, fun hpc => ?_⟩
  have hold : p.pc ≠ .exited := fun hx => hpc (pc_exited h hx)
  cases e with
  | shutdownReturn =>
    simp only [OutputPlugin.step, Option.ite_none_right_eq_some, Option.some.injEq] at h
    rw [← h.2] at hpc
    exact absurd rfl hpc
  | _ => exact hB.unsaved hold

theorem step_inv (hI : Inv o p l) (hadm : Admits (p, l) e) (h : p.step e = some p') :
    Inv o p' (l.see o p e) := by
  refine ⟨base_step hI.toBase h, fun hf => ?_⟩
  by_cases hold : l.fatal = true
  · exact (hI.doomed hold).step h
  · have hnew : returnsFatal p e = true := by
      rw [Bool.not_eq_true] at hold
      simpa [Ledger.see, hold] using hf
    obtain ⟨hm, hstop⟩ := hadm hnew
    exact doomed_of_fatal h hnew hm hstop

/-! ## The ways around the termination path -/

/-- A stopped thread on its way out has not saved the error when it is gone. -/
theorem lost_of_stopped (hf : l.fatal = true) (hsaved : l.remains.errSaved = false)
    (hpc : p.pc = .shutdown) (hstop : p.localStop = true) :
    ∃ es t, Runs.run (step o) (p, l) es = some t ∧ ¬Safe o t := by
  have hstep : p.step .shutdownReturn = some { p with pc := .exited } := by
    simp only [OutputPlugin.step, hpc, if_true]
  refine ⟨[.shutdownReturn], _, Runs.run_observe _ hstep rfl, fun hS => ?_⟩
  have hlost : (leave o p l.remains).errSaved = true :=
    ((hS (by simp [Ledger.see, hf])).2 rfl).errSaved
  rw [leave_stopped _ hstop, hsaved] at hlost
  cases hlost

/-- From the head of the loop a stop request leads there. -/
theorem lost_of_head (hf : l.fatal = true) (hsaved : l.remains.errSaved = false)
    (hpc : p.pc = .head) : ∃ es t, Runs.run (step o) (p, l) es = some t ∧ ¬Safe o t := by
  cases hstop : p.localStop with
  | true =>
    have hstep : p.step .head = some { p with pc := .shutdown } := by
      simp only [OutputPlugin.step, hpc, hstop, if_true]
    obtain ⟨es, t, hrun, ht⟩ := lost_of_stopped (o := o) (p := { p with pc := .shutdown })
      (l := l.see o p .head) (by simp [Ledger.see, hf]) hsaved rfl hstop
    exact ⟨.head :: es, t, Runs.run_observe _ hstep hrun, ht⟩
  | false =>
    let p₁ := { p with stop := true }
    let p₂ := { p₁ with localStop := true, pc := .body }
    let p₃ := { p₂ with pc := .head }
    have h₂ : p₁.step .head = some p₂ := by simp [OutputPlugin.step, p₁, p₂, hpc, hstop]
    have h₃ : p₂.step .nothing = some p₃ := by simp [OutputPlugin.step, p₂, p₃]
    have h₄ : p₃.step .head = some { p₃ with pc := .shutdown } := by
      simp [OutputPlugin.step, p₃, p₂]
    obtain ⟨es, t, hrun, ht⟩ := lost_of_stopped (o := o) (p := { p₃ with pc := .shutdown })
      (l := ⟨true, l.remains⟩) rfl hsaved rfl rfl
    refine ⟨.stop :: .head :: .nothing :: .head :: es, t, ?_, ht⟩
    refine Runs.run_observe p₁ rfl (Runs.run_observe _ h₂ (Runs.run_observe _ h₃
      (Runs.run_observe _ h₄ ?_)))
    have hl : (((l.see o p .stop).see o p₁ .head).see o p₂ .nothing).see o p₃ .head =
        ⟨true, l.remains⟩ := by
      simp [Ledger.see, hf]
    rw [hl]
    exact hrun

/-- A fatal result of an idle poll is dropped, and one that comes when `stop` has been read ends in a
plain stop. -/
theorem lost_of_not_admits (hB : Base p l) (h : p.step e = some p') (hadm : ¬Admits (p, l) e) :
    ∃ es t, Runs.run (step o) (p', l.see o p e) es = some t ∧ ¬Safe o t := by
  simp only [Admits, Classical.not_imp, not_and_or, not_not, Bool.not_eq_false] at hadm
  obtain ⟨hf, hor⟩ := hadm
  have hfatal : (l.see o p e).fatal = true := by simp [Ledger.see, hf]
  cases e with
  | pmReturn v =>
    obtain ⟨again, hpc, rfl⟩ := step_pmReturn h
    have hm : p.msg ≠ none := hB.busy (by simp [current, hpc])
    have hstop := hor.resolve_left hm
    have hsaved := hB.unsaved (by simp [hpc])
    have hret : (p.pmReturn v).2 = .fatal := beq_iff_eq.mp hf
    obtain ⟨hmsg, hlocal⟩ := pmReturn_thread p v
    rw [hret, advance_fatal]
    let q := { (p.pmReturn v).1 with pc := .ticker again .fatal }
    have hstep : q.step (.ticker 0) = some { q with pc := .shutdown } := by
      have hqm : q.msg ≠ none := by
        change (p.pmReturn v).1.msg ≠ none
        rw [hmsg]
        exact hm
      simp [OutputPlugin.step, q, finish_fatal hqm]
    obtain ⟨es, t, hrun, ht⟩ := lost_of_stopped (o := o) (p := { q with pc := .shutdown })
      (l := (l.see o p (.pmReturn v)).see o q (.ticker 0)) (by simp [Ledger.see, hf]) hsaved
      rfl (hlocal.trans hstop)
    exact ⟨.ticker 0 :: es, t, Runs.run_observe _ hstep hrun, ht⟩
  | timerReturn b =>
    cases b with
    | false => cases hf
    | true =>
      simp only [OutputPlugin.step] at h
      split at h
      · rename_i hpc
        have hsaved := hB.unsaved (by simp [hpc])
        cases h
        simp only [if_true]
        cases hm : p.msg with
        | none =>
          refine lost_of_head hfatal hsaved ?_
          simp only [finish]
        | some m =>
          have hstop := hor.resolve_left (by simp [hm])
          rw [finish_fatal (by simp)]
          exact lost_of_stopped hfatal hsaved rfl hstop
      · cases h
  | _ => cases hf

end

theorem init_inv (o : Options) (rq : ReadQueue) (asyncLen ti te : Nat) (start : CheckpointPair) :
    Inv o (init rq asyncLen ti te start).1 (init rq asyncLen ti te start).2 :=
  ⟨⟨fun h => (by cases h), fun _ => rfl⟩, fun h => (by cases h)⟩

/-- If every fatal result comes from a call on a message in hand and before the thread has read
`stop`, it terminates the plugin; and after any other fatal result the thread can end without that. -/
theorem fatal_terminates (o : Options) (rq : ReadQueue) (asyncLen ti te : Nat)
    (start : CheckpointPair) :
    (∀ es, Runs.Meets (step o) Admits (init rq asyncLen ti te start) es →
      Runs.Always (step o) (Safe o) (init rq asyncLen ti te start) es) ∧
    ∀ es s e s', Runs.run (step o) (init rq asyncLen ti te start) es = some s →
      step o s e = some s' → ¬Admits s e → ∃ fs t, Runs.run (step o) s' fs = some t ∧ ¬Safe o t := by
  refine ⟨fun es hm => ?_, fun es s e s' hrun h hadm => ?_⟩
  · refine (Runs.always_of_meets (I := fun s : State => Inv o s.1 s.2) ?_
      (init_inv o rq asyncLen ti te start) hm).mono fun s hI => hI.safe
    rintro ⟨p, l⟩ e ⟨p', l'⟩ hI hc h
    obtain ⟨hp, rfl⟩ := Runs.observe_some.mp h
    exact step_inv hI hc hp
  · have hB : Base s.1 s.2 := by
      refine Runs.run_invariant (I := fun s : State => Base s.1 s.2) ?_
        (init_inv o rq asyncLen ti te start).toBase hrun
      rintro ⟨p, l⟩ e ⟨p', l'⟩ hB h
      obtain ⟨hp, rfl⟩ := Runs.observe_some.mp h
      exact base_step hB hp
    obtain ⟨p', l'⟩ := s'
    obtain ⟨hp, rfl⟩ := Runs.observe_some.mp h
    exact lost_of_not_admits hB hp hadm

instance (s : State) (e : OpEvent) : Decidable (Admits s e) := by
  unfold Admits
  infer_instance

/-- A message is sent; the next is answered `RETRY`, offered again and answered with a fatal result. -/
def retriedRun : List OpEvent :=
  [.head, .openFirst .input, .deliver .input ⟨0, 100⟩, .matcher true, .pmReturn .sent, .ticker 0,
   .head, .deliver .input ⟨0, 200⟩, .matcher true, .pmReturn .retry, .ticker 0, .reoffer, .matcher true,
   .pmReturn .fatal, .ticker 0, .shutdownReturn]

theorem fatal_terminates_retried :
    Runs.Always (step ⟨false, true⟩) (Safe ⟨false, true⟩) (init .input 0 60 10 ⟨⟨0, 0⟩, ⟨0, 0⟩⟩) retriedRun ∧
      ∃ t, Runs.run (step ⟨false, true⟩) (init .input 0 60 10 ⟨⟨0, 0⟩, ⟨0, 0⟩⟩) retriedRun = some t ∧
        t.1.pc = .exited ∧ t.2.fatal = true ∧ t.2.remains.stored .input = some ⟨0, 100⟩ ∧
        t.2.remains.errSaved = true ∧ t.2.remains.listed = false ∧ t.2.remains.signalled = true :=
  ⟨(fatal_terminates ⟨false, true⟩ .input 0 60 10 ⟨⟨0, 0⟩, ⟨0, 0⟩⟩).1 retriedRun (by decide +kernel),
    _, rfl, rfl, rfl, rfl, rfl, rfl, rfl⟩

/-- The timer event of an idle poll fails; the loop goes on and calls it again. -/
def idleRun : List OpEvent :=
  [.head, .idle, .ticker 10, .timerReturn true, .head, .idle, .ticker 100]

theorem fatal_ignored : ¬∀ o rq asyncLen ti te start es,
    Runs.Always (step o) (Safe o) (init rq asyncLen ti te start) es := by
  intro h
  obtain ⟨t, hrun, hf, hev⟩ : ∃ t,
      Runs.run (step ⟨false, true⟩) (init .input 0 60 10 ⟨⟨0, 0⟩, ⟨0, 0⟩⟩) idleRun = some t ∧
        t.2.fatal = true ∧ evaluating t.1 = true :=
    ⟨_, rfl, rfl, rfl⟩
  have hsafe := (h _ _ _ _ _ _ _).run hrun hf
  rw [hev] at hsafe
  cases hsafe.1

end OutputTermination

end Hindsight
