import Hindsight.CliQueues

/-!
# Hindsight.CliCascade

The way out of `main` in `hindsight_cli`: the input plugins, the analysis threads and the output plugins are told to
stop and joined, each kind after the one before it.

* `Moves`: all that an action of `main` does, and `Steps`: all that any step does.
* `InputsDown`, `ThreadsDown`, `OutputsDown`: what holds of each kind of plugin on the way. None runs past its join,
  and one that was lost is in the exit status.
-/

namespace Hindsight

namespace CliExit

open CliThread CliService CliDrain QueueContent

/-- How far `main` is on its way out. -/
def rank : MainPc → Nat
  | .loop | .flushInput .service | .flushAnalysis .service => 0
  | .stopInputs _ => 1
  | .waitInputs _ => 2
  | .flushInput .inputs => 3
  | .flushAnalysis .inputs => 4
  | .stopAnalysis _ => 5
  | .waitAnalysis _ => 6
  | .flushInput .analysis => 7
  | .flushAnalysis .analysis => 8
  | .stopOutputs _ => 9
  | .waitOutputs _ => 10
  | .flushInput .outputs => 11
  | .flushAnalysis .outputs => 12
  | .exited => 13

/-! ## The cascade -/

/-- What an action of `main` does. -/
inductive Moves (P : Program) (s : HsCli) (joined : Bool) : HsCli → Prop
  | stopInput {i : Nat} (hm : s.main = .stopInputs i) (hi : i < P.inputCap) : Moves P s joined
    { s with
      inputs := Function.update s.inputs i (HsCli.stopInput (s.inputs i))
      main := .stopInputs (i + 1) }
  | stoppedInputs {i : Nat} (hm : s.main = .stopInputs i) : Moves P s joined { s with main := .waitInputs 0 }
  | joinInput {i : Nat} {failed : Bool} (hm : s.main = .waitInputs i) (hi : i < P.inputCap)
    (hpc : (s.inputs i).pc = .leaving failed true) : Moves P s joined
    { s with
      inputs := Function.update s.inputs i ⟨.gone, (s.inputs i).shutdown, false⟩
      inputsTerminated := s.inputsTerminated || failed
      main := .waitInputs (i + 1) }
  | leakInput {i : Nat} (hm : s.main = .waitInputs i) (hi : i < P.inputCap) (hj : joined = false) :
    Moves P s joined
    { s with
      inputs := Function.update s.inputs i { s.inputs i with listed := false }
      main := .waitInputs (i + 1) }
  | skipInput {i : Nat} (hm : s.main = .waitInputs i) (hi : i < P.inputCap)
    (hl : (s.inputs i).listed = false) : Moves P s joined { s with main := .waitInputs (i + 1) }
  | joinedInputs {i : Nat} (hm : s.main = .waitInputs i) (hi : P.inputCap ≤ i) : Moves P s joined
    { s with main := .flushInput .inputs }
  | flushInput {st : Stage} (hm : s.main = .flushInput st) : Moves P s joined
    { s.flush .input with main := .flushAnalysis st }
  | flushAnalysis {st : Stage} (hm : s.main = .flushAnalysis st) : Moves P s joined
    ((s.flush .analysis).afterPass st)
  | stopThread {i : Nat} (hm : s.main = .stopAnalysis i) (hi : i < P.threadCnt) : Moves P s joined
    { s with
      analysis := Function.update s.analysis i (HsCli.stopThread (s.analysis i))
      main := .stopAnalysis (i + 1) }
  | stoppedThreads {i : Nat} (hm : s.main = .stopAnalysis i) : Moves P s joined
    { s with main := .waitAnalysis 0 }
  | joinThread {i : Nat} (hm : s.main = .waitAnalysis i) (hi : i < P.threadCnt)
    (hend : (s.analysis i).ended = true) : Moves P s joined
    { s with
      analysisTerminated := s.analysisTerminated || (s.analysis i).terminated
      main := .waitAnalysis (i + 1) }
  | joinedThreads {i : Nat} (hm : s.main = .waitAnalysis i) (hi : P.threadCnt ≤ i) : Moves P s joined
    { s with
      rv := if s.analysisTerminated then s.rv ||| 4 else s.rv
      main := .flushInput .analysis }
  | stopOutput {j : Nat} (hm : s.main = .stopOutputs j) (hj : j < P.outputCap) : Moves P s joined
    { s with
      outputs := Function.update s.outputs j (HsCli.stopOutput (s.outputs j))
      main := .stopOutputs (j + 1) }
  | stoppedOutputs {j : Nat} (hm : s.main = .stopOutputs j) : Moves P s joined
    { s with main := .waitOutputs 0 }
  | joinOutput {j : Nat} (hm : s.main = .waitOutputs j) (hj : j < P.outputCap)
    (hend : (s.outputs j).ended = true) : Moves P s joined
    { s with
      outputs := Function.update s.outputs j { s.outputs j with listed := false }
      outputsTerminated := s.outputsTerminated || !(s.outputs j).running
      main := .waitOutputs (j + 1) }
  | skipOutput {j : Nat} (hm : s.main = .waitOutputs j) (hj : j < P.outputCap)
    (hl : (s.outputs j).listed = false) : Moves P s joined { s with main := .waitOutputs (j + 1) }
  | joinedOutputs {j : Nat} (hm : s.main = .waitOutputs j) (hj : P.outputCap ≤ j) : Moves P s joined
    { s with main := .flushInput .outputs }

theorem moves_of_mainStep {P : Program} {s s' : HsCli} {joined : Bool} (h : s.mainStep P joined = some s') :
    Moves P s joined s' := by
  unfold HsCli.mainStep at h
  cases hm : s.main with
  | loop | exited =>
    rw [hm] at h
    cases h
  | stopInputs i =>
    simp only [hm] at h
    split at h <;> cases h
    · exact .stopInput hm ‹_›
    · exact .stoppedInputs hm
  | waitInputs i =>
    simp only [hm] at h
    split at h
    · rename_i hi
      split at h
      · obtain ⟨t, ht, rfl⟩ := Option.map_eq_some_iff.mp h
        simp only [HsCli.joinInput] at ht
        split at ht
        · split at ht
          · cases ht
            exact .joinInput hm hi ‹_›
          · cases ht
        · cases ht
          exact .leakInput hm hi (Bool.eq_false_iff.mpr ‹_›)
      · cases h
        exact .skipInput hm hi (Bool.eq_false_iff.mpr ‹_›)
    · cases h
      exact .joinedInputs hm (not_lt.mp ‹_›)
  | flushInput st =>
    simp only [hm] at h
    cases h
    exact .flushInput hm
  | flushAnalysis st =>
    simp only [hm] at h
    cases h
    exact .flushAnalysis hm
  | stopAnalysis i =>
    simp only [hm] at h
    split at h <;> cases h
    · exact .stopThread hm ‹_›
    · exact .stoppedThreads hm
  | waitAnalysis i =>
    simp only [hm] at h
    split at h
    · split at h
      · cases h
        exact .joinThread hm ‹_› ‹_›
      · cases h
    · cases h
      exact .joinedThreads hm (not_lt.mp ‹_›)
  | stopOutputs j =>
    simp only [hm] at h
    split at h <;> cases h
    · exact .stopOutput hm ‹_›
    · exact .stoppedOutputs hm
  | waitOutputs j =>
    simp only [hm] at h
    split at h
    · split at h
      · split at h
        · cases h
          exact .joinOutput hm ‹_› ‹_›
        · cases h
      · cases h
        exact .skipOutput hm ‹_› (Bool.eq_false_iff.mpr ‹_›)
    · cases h
      exact .joinedOutputs hm (not_lt.mp ‹_›)

/-- What a step does. -/
inductive Steps (P : Program) (s : HsCli) : CliService.Event → HsCli → Prop
  | spill (q : Queue) (n : Nat) : Steps P s (.spill q n)
    { s with queue := Function.update s.queue q ((s.queue q).spill n) }
  | inputInject {i : Nat} {pb : List UInt8} (hi : i < P.inputCap) (hpc : (s.inputs i).pc = .running) :
    Steps P s (.inputInject i pb) (s.inject P .input pb)
  | inputLeave {i : Nat} {failed told : Bool} (hi : i < P.inputCap) (hpc : (s.inputs i).pc = .running)
    (ht : told = true → (s.inputs i).shutdown = true) : Steps P s (.inputLeave i failed told)
    { s with inputs := Function.update s.inputs i { s.inputs i with pc := .leaving failed told } }
  | inputDetach {i : Nat} {failed : Bool} (hpc : (s.inputs i).pc = .leaving failed false)
    (hm : ¬s.main.locksInputs = true) : Steps P s (.inputDetach i)
    { s with
      inputs := Function.update s.inputs i ⟨.gone, (s.inputs i).shutdown, false⟩
      inputsTerminated := s.inputsTerminated || failed }
  | analysis {i : Nat} {re : ReaderEvent} {t : PluginThread} (hi : i < P.threadCnt)
    (ht : HsCli.analysisStep P s.disk i (s.analysis i) re = some t) : Steps P s (.analysis i re)
    { s with analysis := Function.update s.analysis i t }
  | analysisInject {i : Nat} {pb : List UInt8} (hi : i < P.threadCnt) (hend : (s.analysis i).ended = false) :
    Steps P s (.analysisInject i pb) (s.inject P .analysis pb)
  | analysisEnd {i : Nat} {fatal : Nat → Bool} (hi : i < P.threadCnt)
    (hpc : (s.analysis i).reader.pc = .exited) (hend : (s.analysis i).ended = false) :
    Steps P s (.analysisEnd i fatal)
    { s with analysis := Function.update s.analysis i (HsCli.analysisEnd P i fatal (s.analysis i)) }
  | output {j : Nat} {oe : CliThread.Event} {p : OutputThread} (hj : j < P.outputCap) (he : ofLoop oe = true)
    (hp : HsCli.outputStep P s.disk j (s.outputs j) oe = some p) : Steps P s (.output j oe)
    { s with outputs := Function.update s.outputs j p }
  | outputInject {j : Nat} {pb : List UInt8} (hj : j < P.outputCap) (hend : (s.outputs j).ended = false) :
    Steps P s (.outputInject j pb) (s.inject P .input pb)
  | outputStopped {j : Nat} {fatal : Bool} (hj : j < P.outputCap) (hend : (s.outputs j).ended = false)
    (hpc : (s.outputs j).thread.pc = .exited ∨ (s.outputs j).thread.pc = .failed)
    (hstop : (s.outputs j).thread.localStop = true) : Steps P s (.outputEnd j fatal)
    { s with
      outputs := Function.update s.outputs j
        { s.outputs j with running := (s.outputs j).running && !fatal, ended := true } }
  | outputLost {j : Nat} {fatal : Bool} (hj : j < P.outputCap) (hend : (s.outputs j).ended = false)
    (hpc : (s.outputs j).thread.pc = .exited ∨ (s.outputs j).thread.pc = .failed)
    (hstop : ¬(s.outputs j).thread.localStop = true) (hm : ¬s.main.locksOutputs = true) :
    Steps P s (.outputEnd j fatal)
    { s with
      outputs := Function.update s.outputs j
        { s.outputs j with running := (s.outputs j).running && !fatal, listed := false, ended := true },
      outputsTerminated := true }
  | writeCheckpoints (hm : s.main = .loop) : Steps P s .writeCheckpoints
    { s with main := .flushInput .service }
  | shutdown (hm : s.main = .loop) : Steps P s .shutdown { s with main := .stopInputs 0 }
  | main {joined : Bool} {s' : HsCli} (hm : Moves P s joined s') : Steps P s (.main joined) s'

theorem steps_of_step {P : Program} {s s' : HsCli} {e : CliService.Event}
    (h : CliService.step P s e = some s') : Steps P s e s' := by
  cases e with
  | spill q n =>
    cases h
    exact .spill q n
  | inputInject i pb =>
    obtain ⟨⟨hi, hpc⟩, hs⟩ := Option.ite_none_right_eq_some.mp h
    exact Option.some.inj hs ▸ .inputInject hi hpc
  | inputLeave i failed told =>
    obtain ⟨⟨hi, hpc, ht⟩, hs⟩ := Option.ite_none_right_eq_some.mp h
    exact Option.some.inj hs ▸ .inputLeave hi hpc ht
  | inputDetach i =>
    simp only [CliService.step] at h
    split at h
    · rename_i hpc
      obtain ⟨hm, hs⟩ := Option.ite_none_left_eq_some.mp h
      exact Option.some.inj hs ▸ .inputDetach hpc hm
    · cases h
  | analysis i re =>
    obtain ⟨hi, hs⟩ := Option.ite_none_right_eq_some.mp h
    obtain ⟨t, ht, rfl⟩ := Option.map_eq_some_iff.mp hs
    exact .analysis hi ht
  | analysisInject i pb =>
    obtain ⟨⟨hi, hend⟩, hs⟩ := Option.ite_none_right_eq_some.mp h
    exact Option.some.inj hs ▸ .analysisInject hi hend
  | analysisEnd i fatal =>
    obtain ⟨⟨hi, hpc, hend⟩, hs⟩ := Option.ite_none_right_eq_some.mp h
    exact Option.some.inj hs ▸ .analysisEnd hi hpc hend
  | output j oe =>
    obtain ⟨⟨hj, he⟩, hs⟩ := Option.ite_none_right_eq_some.mp h
    obtain ⟨p, hp, rfl⟩ := Option.map_eq_some_iff.mp hs
    exact .output hj he hp
  | outputInject j pb =>
    obtain ⟨⟨hj, hend⟩, hs⟩ := Option.ite_none_right_eq_some.mp h
    exact Option.some.inj hs ▸ .outputInject hj hend
  | outputEnd j fatal =>
    obtain ⟨⟨hj, hend, hpc⟩, hs⟩ := Option.ite_none_right_eq_some.mp h
    simp only [HsCli.outputEnd] at hs
    split at hs
    · exact Option.some.inj hs ▸ .outputStopped hj hend hpc ‹_›
    · obtain ⟨hm, hs⟩ := Option.ite_none_left_eq_some.mp hs
      exact Option.some.inj hs ▸ .outputLost hj hend hpc ‹_› hm
  | writeCheckpoints =>
    obtain ⟨hm, hs⟩ := Option.ite_none_right_eq_some.mp h
    exact Option.some.inj hs ▸ .writeCheckpoints hm
  | shutdown =>
    obtain ⟨hm, hs⟩ := Option.ite_none_right_eq_some.mp h
    exact Option.some.inj hs ▸ .shutdown hm
  | main joined => exact .main (moves_of_mainStep h)

/-- `main` has waited for input plugin `i`. -/
def pastInput (i : Nat) (pc : MainPc) : Prop := 3 ≤ rank pc ∨ ∃ n, pc = .waitInputs n ∧ i < n

/-- `main` has waited for analysis thread `i`. -/
def pastThread (i : Nat) (pc : MainPc) : Prop := 7 ≤ rank pc ∨ ∃ n, pc = .waitAnalysis n ∧ i < n

/-- `main` has waited for output plugin `j`. -/
def pastOutput (j : Nat) (pc : MainPc) : Prop := 11 ≤ rank pc ∨ ∃ n, pc = .waitOutputs n ∧ j < n

section

variable {n i : Nat} {pc : MainPc}

theorem pastInput_succ (hpc : pc = .waitInputs i) (h : pastInput n (.waitInputs (i + 1))) :
    pastInput n pc ∨ n = i := by
  simp only [pastInput, rank, MainPc.waitInputs.injEq, exists_eq_left', Nat.reduceLeDiff, false_or] at h
  exact (Nat.le_of_lt_succ h).lt_or_eq.imp_left fun hlt => .inr ⟨i, hpc, hlt⟩

theorem pastThread_succ (hpc : pc = .waitAnalysis i) (h : pastThread n (.waitAnalysis (i + 1))) :
    pastThread n pc ∨ n = i := by
  simp only [pastThread, rank, MainPc.waitAnalysis.injEq, exists_eq_left', Nat.reduceLeDiff, false_or] at h
  exact (Nat.le_of_lt_succ h).lt_or_eq.imp_left fun hlt => .inr ⟨i, hpc, hlt⟩

theorem pastOutput_succ (hpc : pc = .waitOutputs i) (h : pastOutput n (.waitOutputs (i + 1))) :
    pastOutput n pc ∨ n = i := by
  simp only [pastOutput, rank, MainPc.waitOutputs.injEq, exists_eq_left', Nat.reduceLeDiff, false_or] at h
  exact (Nat.le_of_lt_succ h).lt_or_eq.imp_left fun hlt => .inr ⟨i, hpc, hlt⟩

end

/-- An input plugin is off the list only when its thread is out of its loop. -/
structure InputsDown (P : Program) (s : HsCli) : Prop where
  unlisted : ∀ i < P.inputCap, (s.inputs i).listed = false → (s.inputs i).pc ≠ .running
  joined : ∀ i < P.inputCap, pastInput i s.main → (s.inputs i).listed = false

/-- A plugin that an analysis thread loses is in the exit status. -/
structure ThreadsDown (P : Program) (s : HsCli) : Prop where
  stop : ∀ i < P.threadCnt, (s.analysis i).reader.stop = true → 5 ≤ rank s.main
  ended : ∀ i < P.threadCnt, (s.analysis i).ended = true → (s.analysis i).reader.pc = .exited
  joined : ∀ i < P.threadCnt, pastThread i s.main → (s.analysis i).ended = true
  dead : ∀ i < P.threadCnt, ∀ k < P.pluginCnt i, ((s.analysis i).plugins k).alive = false →
    (s.analysis i).terminated = true
  terminated : ∀ i < P.threadCnt, pastThread i s.main → (s.analysis i).terminated = true →
    s.analysisTerminated = true
  status : 7 ≤ rank s.main → s.analysisTerminated = true → s.rv.testBit 2 = true

/-- So is an output plugin that fails. -/
structure OutputsDown (P : Program) (s : HsCli) : Prop where
  stop : ∀ j < P.outputCap, (s.outputs j).thread.stop = true → 9 ≤ rank s.main
  ended : ∀ j < P.outputCap, (s.outputs j).ended = true →
    (s.outputs j).thread.pc = .exited ∨ (s.outputs j).thread.pc = .failed
  failed : ∀ j < P.outputCap, (s.outputs j).thread.pc = .failed → (s.outputs j).running = false
  unlisted : ∀ j < P.outputCap, (s.outputs j).listed = false →
    (s.outputs j).ended = true ∧ ((s.outputs j).running = true ∨ s.outputsTerminated = true)
  joined : ∀ j < P.outputCap, pastOutput j s.main → (s.outputs j).listed = false
  status : s.main = .exited → s.outputsTerminated = true → s.rv.testBit 3 = true

/-! ### The input plugins -/

section

variable {P : Program} {s s' : HsCli} {e : CliService.Event} {joined : Bool}

theorem InputsDown.frame (h : InputsDown P s) (hinputs : s'.inputs = s.inputs)
    (hpast : ∀ i < P.inputCap, pastInput i s'.main → pastInput i s.main) : InputsDown P s' where
  unlisted := by
    rw [hinputs]
    exact h.unlisted
  joined i hi hp := by
    rw [hinputs]
    exact h.joined i hi (hpast i hi hp)

/-- An input plugin is replaced by one that is no less out of its loop. -/
theorem InputsDown.update (h : InputsDown P s) (i : Nat) (p : InputThread)
    (hp : p.listed = false → p.pc ≠ .running) (hl : (s.inputs i).listed = false → p.listed = false)
    (hin : s'.inputs = Function.update s.inputs i p)
    (hpast : ∀ n < P.inputCap, pastInput n s'.main → pastInput n s.main ∨ n = i ∧ p.listed = false) :
    InputsDown P s' := by
  constructor
  · intro n hn
    rw [hin]
    by_cases he : n = i
    · rw [he, Function.update_self]
      exact hp
    · rw [Function.update_of_ne he]
      exact h.unlisted n hn
  · intro n hn hpn
    rw [hin]
    by_cases he : n = i
    · rw [he, Function.update_self]
      rcases hpast n hn hpn with hold | ⟨-, hp⟩
      · exact hl (he ▸ h.joined n hn hold)
      · exact hp
    · rw [Function.update_of_ne he]
      exact h.joined n hn ((hpast n hn hpn).resolve_right fun hp => he hp.1)

theorem InputsDown.moves (h : InputsDown P s) (hm : Moves P s joined s')
    (hadm : ∀ i, s.main = .waitInputs i → joined = true) : InputsDown P s' := by
  have hlater : ∀ {pc : MainPc}, 3 ≤ rank pc → s.main = pc → ∀ i < P.inputCap, pastInput i s'.main →
      pastInput i s.main := fun hr hpc i _ _ => .inl (hpc ▸ hr)
  cases hm with
  | @stopInput i hm hi =>
    refine h.update i (HsCli.stopInput (s.inputs i)) (h.unlisted i hi) (fun hl => hl) rfl fun n _ hp => ?_
    simp [pastInput, rank] at hp
  | stoppedInputs hm => exact h.frame rfl fun n _ hp => (by simp [pastInput, rank] at hp)
  | @joinInput i failed hm hi hpc =>
    exact h.update _ _ (fun _ => (by simp)) (fun _ => rfl) rfl fun n _ hp =>
      (pastInput_succ hm hp).imp_right fun he => ⟨he, rfl⟩
  | leakInput hm hi hj =>
    rw [hadm _ hm] at hj
    cases hj
  | @skipInput i hm hi hl =>
    exact h.update i (s.inputs i) (h.unlisted i hi) (fun hl => hl) (Function.update_eq_self i s.inputs).symm
      fun n _ hp => (pastInput_succ hm hp).imp_right fun he => ⟨he, hl⟩
  | @joinedInputs i hm hi => exact h.frame rfl fun n hn _ => .inr ⟨i, hm, hn.trans_le hi⟩
  | @flushInput st hm =>
    refine h.frame rfl fun n _ hp => ?_
    cases st with
    | service => simp [pastInput, rank] at hp
    | inputs | analysis | outputs => exact .inl (by rw [hm]; decide)
  | @flushAnalysis st hm =>
    cases st with
    | service => exact h.frame rfl fun n _ hp => (by simp [pastInput, rank, HsCli.afterPass] at hp)
    | inputs | analysis | outputs => exact h.frame rfl (hlater (by decide) hm)
  | stopThread hm | stoppedThreads hm | joinThread hm | joinedThreads hm | stopOutput hm | stoppedOutputs hm
  | joinOutput hm | skipOutput hm | joinedOutputs hm =>
    exact h.frame rfl fun n _ _ => .inl (by rw [hm]; simp [rank])

theorem InputsDown.step (h : InputsDown P s) (hs : Steps P s e s')
    (hadm : ∀ joined, e = .main joined → ∀ i, s.main = .waitInputs i → joined = true) : InputsDown P s' := by
  cases hs with
  | main hm => exact h.moves hm (hadm _ rfl)
  | @inputLeave i failed told =>
    exact h.update i { s.inputs i with pc := .leaving failed told } (fun _ => (by simp)) (fun hl => hl) rfl
      fun n _ hp => .inl hp
  | @inputDetach i => exact h.update i _ (fun _ => (by simp)) (fun _ => rfl) rfl fun n _ hp => .inl hp
  | writeCheckpoints | shutdown => exact h.frame rfl fun n _ hp => (by simp [pastInput, rank] at hp)
  | _ => exact h.frame rfl fun _ _ hp => hp

end

/-! ### The analysis threads -/

theorem ofLoop_of (k : Nat) (e : ReaderEvent) : ofLoop (e.of k) = true := by cases e <;> rfl

/-- A thread that left its loop takes no step of it. -/
theorem step_pc {S : Setup} {t t' : Thread} {e : CliThread.Event} (h : CliThread.step S t e = some t')
    (he : ofLoop e = true) : t.pc ≠ .exited ∧ t.pc ≠ .failed := by
  cases e with
  | stop | arrive => cases he
  | head =>
    obtain ⟨hpc, -⟩ := step_head.mp h
    simp [hpc]
  | poll n =>
    obtain ⟨q, hpc, -⟩ := step_poll.mp h
    simp [hpc]
  | openNext =>
    obtain ⟨q, hpc, -⟩ := step_openNext.mp h
    simp [hpc]
  | choose fatal =>
    obtain ⟨hpc, -⟩ := step_choose.mp h
    simp [hpc]
  | answer v fatal =>
    obtain ⟨q, pb, again, hpc, -⟩ := step_answer.mp h
    simp [hpc]

section

variable {P : Program} {s s' : HsCli} {e : CliService.Event} {joined : Bool} {disk : Queue → Dir}
  {t t' : PluginThread} {i : Nat}

theorem analysisStep_some {re : ReaderEvent} (h : HsCli.analysisStep P disk i t re = some t') :
    CliThread.step (P.analysisSetup disk i 0) (now disk t.reader) (re.of 0) = some t'.reader ∧
      (∀ k, t'.plugins k = HsCli.pluginStep P disk i k t.reader re (t.plugins k)) ∧
      t'.terminated = (t.terminated ||
        (List.range (P.pluginCnt i)).any fun k => (t.plugins k).alive && !(t'.plugins k).alive) ∧
      t'.ended = t.ended := by
  unfold HsCli.analysisStep at h
  split at h
  · cases h
    exact ⟨‹_›, fun _ => rfl, rfl, rfl⟩
  · cases h

/-- What an analysis thread owes to the exit status. -/
structure ThreadOk (P : Program) (i : Nat) (pc : MainPc) (analysisTerminated : Bool) (t : PluginThread) :
    Prop where
  stop : t.reader.stop = true → 5 ≤ rank pc
  ended : t.ended = true → t.reader.pc = .exited
  joined : pastThread i pc → t.ended = true
  dead : ∀ k < P.pluginCnt i, (t.plugins k).alive = false → t.terminated = true
  terminated : pastThread i pc → t.terminated = true → analysisTerminated = true

theorem ThreadsDown.ok (h : ThreadsDown P s) (hi : i < P.threadCnt) :
    ThreadOk P i s.main s.analysisTerminated (s.analysis i) :=
  ⟨h.stop i hi, h.ended i hi, h.joined i hi, h.dead i hi, h.terminated i hi⟩

theorem ThreadsDown.of_ok
    (h : ∀ i < P.threadCnt, ThreadOk P i s.main s.analysisTerminated (s.analysis i))
    (hstatus : 7 ≤ rank s.main → s.analysisTerminated = true → s.rv.testBit 2 = true) : ThreadsDown P s :=
  ⟨fun i hi => (h i hi).stop, fun i hi => (h i hi).ended, fun i hi => (h i hi).joined,
    fun i hi => (h i hi).dead, fun i hi => (h i hi).terminated, hstatus⟩

/-- One thread is replaced. -/
theorem ThreadsDown.replace (hs : s'.analysis = Function.update s.analysis i t)
    (ht : i < P.threadCnt → ThreadOk P i s'.main s'.analysisTerminated t)
    (hother : ∀ n < P.threadCnt, n ≠ i → ThreadOk P n s'.main s'.analysisTerminated (s.analysis n))
    (hstatus : 7 ≤ rank s'.main → s'.analysisTerminated = true → s'.rv.testBit 2 = true) :
    ThreadsDown P s' := by
  have hall := (Function.forall_update_iff s.analysis fun n t => n < P.threadCnt →
    ThreadOk P n s'.main s'.analysisTerminated t).mpr ⟨ht, fun n he hn => hother n hn he⟩
  refine .of_ok (fun n hn => ?_) hstatus
  rw [hs]
  exact hall n hn

theorem ThreadsDown.update (h : ThreadsDown P s) (i : Nat) (t : PluginThread)
    (ht : i < P.threadCnt → ThreadOk P i s.main s.analysisTerminated t)
    (hs : s' = { s with analysis := Function.update s.analysis i t }) : ThreadsDown P s' := by
  subst hs
  exact .replace rfl ht (fun n hn _ => h.ok hn) h.status

theorem ThreadsDown.frame (h : ThreadsDown P s) (ha : s'.analysis = s.analysis)
    (ht : s'.analysisTerminated = s.analysisTerminated)
    (hpast : ∀ i < P.threadCnt, pastThread i s'.main → pastThread i s.main)
    (hstop : 5 ≤ rank s.main → 5 ≤ rank s'.main)
    (hrv : 7 ≤ rank s'.main → 7 ≤ rank s.main ∧ (s.rv.testBit 2 = true → s'.rv.testBit 2 = true)) :
    ThreadsDown P s' := by
  refine .of_ok (fun i hi => ?_) fun hr h7 => (hrv hr).2 (h.status (hrv hr).1 (ht ▸ h7))
  rw [ha, ht]
  have hok := h.ok hi
  exact ⟨fun hs => hstop (hok.stop hs), hok.ended, fun hp => hok.joined (hpast i hi hp), hok.dead,
    fun hp => hok.terminated (hpast i hi hp)⟩

theorem not_past {pc : MainPc} (h : t.ended = false) (hok : ThreadOk P i pc joined t) : ¬pastThread i pc := by
  intro hp
  rw [hok.joined hp] at h
  cases h

/-- The loop of a thread keeps its books. -/
theorem ThreadOk.step {pc : MainPc} {re : ReaderEvent} (hok : ThreadOk P i pc joined t)
    (h : HsCli.analysisStep P disk i t re = some t') : ThreadOk P i pc joined t' := by
  obtain ⟨hreader, -, hterminated, hended⟩ := analysisStep_some h
  have hpc : (now disk t.reader).pc ≠ .exited := (step_pc hreader (ofLoop_of 0 re)).1
  have hnot : t.ended = false := Bool.eq_false_iff.mpr fun he => hpc (hok.ended he)
  have hpast : ¬pastThread i pc := not_past hnot hok
  refine ⟨fun hs => hok.stop ?_, fun he => ?_, fun hp => absurd hp hpast, fun k hk hdead => ?_,
    fun hp => absurd hp hpast⟩
  · rw [← hs]
    exact (keeps_of_step hreader (ofLoop_of 0 re)).1.symm
  · rw [hended, hnot] at he
    cases he
  · rw [hterminated, Bool.or_eq_true]
    cases halive : (t.plugins k).alive with
    | false => exact .inl (hok.dead k hk halive)
    | true =>
      refine .inr (List.any_eq_true.mpr ⟨k, List.mem_range.mpr hk, ?_⟩)
      rw [halive, hdead]
      rfl

theorem ThreadOk.finish {pc : MainPc} (hok : ThreadOk P i pc joined t) (hpc : t.reader.pc = .exited)
    (hnot : t.ended = false) (fatal : Nat → Bool) :
    ThreadOk P i pc joined (HsCli.analysisEnd P i fatal t) := by
  have hpast : ¬pastThread i pc := not_past hnot hok
  refine ⟨hok.stop, fun _ => hpc, fun hp => absurd hp hpast, fun k hk hdead => ?_,
    fun hp => absurd hp hpast⟩
  simp only [HsCli.analysisEnd, Bool.or_eq_true]
  cases halive : (t.plugins k).alive with
  | false => exact .inl (hok.dead k hk halive)
  | true =>
    refine .inr (List.any_eq_true.mpr ⟨k, List.mem_range.mpr hk, ?_⟩)
    simp only [HsCli.analysisEnd, halive, Bool.true_and, Bool.not_eq_false'] at hdead
    rw [halive, hdead]
    rfl

theorem ThreadsDown.moves (h : ThreadsDown P s) (hm : Moves P s joined s') : ThreadsDown P s' := by
  cases hm with
  | stopInput hm | stoppedInputs hm | joinInput hm | leakInput hm | skipInput hm | joinedInputs hm =>
    refine h.frame rfl rfl (fun i _ hp => ?_) (fun hr => ?_) fun hr => ?_
    · simp [pastThread, rank] at hp
    · simp [hm, rank] at hr
    · simp [rank] at hr
  | @flushInput st hm =>
    cases st with
    | service | inputs =>
      refine h.frame rfl rfl (fun i _ hp => ?_) (fun hr => ?_) fun hr => ?_
      · simp [pastThread, rank] at hp
      · simp [hm, rank] at hr
      · simp [rank] at hr
    | analysis | outputs =>
      refine h.frame rfl rfl (fun i _ _ => .inl (by rw [hm]; decide)) (fun _ => by simp [rank]) fun _ => ?_
      exact ⟨by rw [hm]; decide, fun hrv => hrv⟩
  | @flushAnalysis st hm =>
    cases st with
    | service =>
      refine h.frame rfl rfl (fun i _ hp => ?_) (fun hr => ?_) fun hr => ?_
      · simp [pastThread, rank, HsCli.afterPass] at hp
      · simp [hm, rank] at hr
      · simp [rank, HsCli.afterPass] at hr
    | inputs =>
      refine h.frame rfl rfl (fun i _ hp => ?_) (fun _ => by simp [rank, HsCli.afterPass]) fun hr => ?_
      · simp [pastThread, rank, HsCli.afterPass] at hp
      · simp [rank, HsCli.afterPass] at hr
    | analysis =>
      refine h.frame rfl rfl (fun i _ _ => .inl (by rw [hm]; decide))
        (fun _ => by simp [rank, HsCli.afterPass]) fun _ => ?_
      exact ⟨by rw [hm]; decide, fun hrv => hrv⟩
    | outputs =>
      refine h.frame rfl rfl (fun i _ _ => .inl (by rw [hm]; decide))
        (fun _ => by simp [rank, HsCli.afterPass]) fun _ => ⟨by rw [hm]; decide, fun hrv => ?_⟩
      change (if s.outputsTerminated = true then s.rv ||| 8 else s.rv).testBit 2 = true
      split
      · rw [Nat.testBit_or, hrv, Bool.true_or]
      · exact hrv
  | @stopThread i hm hi =>
    have hstart : ∀ n, ¬pastThread n (.stopAnalysis (i + 1)) := fun n => by simp [pastThread, rank]
    have hkeep : ∀ n < P.threadCnt, ThreadOk P n (.stopAnalysis (i + 1)) s.analysisTerminated (s.analysis n) :=
      fun n hn => ⟨fun _ => le_rfl, (h.ok hn).ended, fun hp => absurd hp (hstart n), (h.ok hn).dead,
        fun hp => absurd hp (hstart n)⟩
    refine .replace rfl (fun hi => ?_) (fun n hn _ => hkeep n hn) fun hr => (by simp [rank] at hr)
    exact ⟨fun _ => le_rfl, (hkeep i hi).ended, (hkeep i hi).joined, (hkeep i hi).dead, (hkeep i hi).terminated⟩
  | @stoppedThreads i hm =>
    refine h.frame rfl rfl (fun n _ hp => ?_) (fun _ => by simp [rank]) fun hr => ?_
    · simp [pastThread, rank] at hp
    · simp [rank] at hr
  | @joinThread i hm hi hend =>
    refine .of_ok (fun n hn => ?_) fun hr => (by simp [rank] at hr)
    have hok := h.ok hn
    refine ⟨fun _ => by simp [rank], hok.ended, fun hp => ?_, hok.dead, fun hp ht => ?_⟩
    · rcases pastThread_succ hm hp with hp | rfl
      · exact hok.joined hp
      · exact hend
    · rw [Bool.or_eq_true]
      rcases pastThread_succ hm hp with hp | rfl
      · exact .inl (hok.terminated hp ht)
      · exact .inr ht
  | @joinedThreads i hm hi =>
    refine .of_ok (fun n hn => ?_) fun _ ht => ?_
    · have hok := h.ok hn
      have hpast : pastThread n s.main := .inr ⟨i, hm, hn.trans_le hi⟩
      exact ⟨fun _ => by simp [rank], hok.ended, fun _ => hok.joined hpast, hok.dead,
        fun _ => hok.terminated hpast⟩
    · have ht : s.analysisTerminated = true := ht
      simp only [ht, if_true]
      rw [Nat.testBit_or, Bool.or_eq_true]
      exact .inr (by decide)
  | stopOutput hm | stoppedOutputs hm | joinOutput hm | skipOutput hm | joinedOutputs hm =>
    refine h.frame rfl rfl (fun i _ _ => .inl (by rw [hm]; simp [rank])) (fun _ => by simp [rank]) fun _ => ?_
    exact ⟨by rw [hm]; simp [rank], fun hrv => hrv⟩

theorem ThreadsDown.step (h : ThreadsDown P s) (hs : Steps P s e s') : ThreadsDown P s' := by
  cases hs with
  | main hm => exact h.moves hm
  | writeCheckpoints hm | shutdown hm =>
    refine h.frame rfl rfl (fun i _ hp => ?_) (fun hr => ?_) fun hr => ?_
    · simp [pastThread, rank] at hp
    · simp [hm, rank] at hr
    · simp [rank] at hr
  | @analysis i _ t _ ht => exact h.update i t (fun hi => (h.ok hi).step ht) rfl
  | @analysisEnd i fatal _ hpc hend => exact h.update i _ (fun hi => (h.ok hi).finish hpc hend fatal) rfl
  | _ => exact h.frame rfl rfl (fun _ _ hp => hp) (fun hr => hr) fun hr => ⟨hr, fun hrv => hrv⟩

end

/-! ### The output plugins -/

/-- The loop of an output thread fails only where a call of the sandbox does. -/
theorem breaks_of_failed {S : Setup} {t t' : Thread} {e : CliThread.Event} (hk : S.kind = .output)
    (h : CliThread.step S t e = some t') (he : ofLoop e = true) (hf : t'.pc = .failed) :
    HsCli.breaks S t e = true := by
  have hleave : ∀ (q : Queue) (sd : Side) (o : Outcome), (t.leave q sd o).pc ≠ .failed := fun q sd o => by
    rw [Thread.leave_pc]
    split
    · simp
    · cases q <;> simp [Thread.after]
  cases e with
  | stop | arrive => cases he
  | head =>
    obtain ⟨-, rfl⟩ := step_head.mp h
    unfold Thread.head at hf
    split at hf <;> cases hf
  | poll n =>
    obtain ⟨q, -, rfl⟩ := step_poll.mp h
    unfold Thread.poll at hf
    split at hf
    · exact absurd hf (hleave _ _ _)
    · cases q <;> cases hf
  | openNext =>
    obtain ⟨q, -, rfl⟩ := step_openNext.mp h
    exact absurd hf (hleave _ _ _)
  | choose fatal =>
    obtain ⟨-, rfl⟩ := step_choose.mp h
    unfold Thread.choose at hf
    split at hf
    · cases hf
    · split at hf
      · simp only [Thread.idle, hk, reduceCtorEq, false_and, if_false] at hf
      · cases hf
  | answer v fatal =>
    obtain ⟨q, pb, again, -, rfl⟩ := step_answer.mp h
    simp only [HsCli.breaks, Bool.or_eq_true, beq_iff_eq, Bool.and_eq_true]
    unfold Thread.answer at hf
    split at hf
    · cases hf
    · split at hf
      · exact .inl ‹_›
      · split at hf
        · exact .inr ‹_›
        · split at hf
          · simp only at hf
            split_ifs at hf
          · cases hf

section

variable {P : Program} {s s' : HsCli} {e : CliService.Event} {joined lost : Bool} {disk : Queue → Dir}
  {p p' : OutputThread} {j : Nat}

theorem outputStep_some {oe : CliThread.Event} (h : HsCli.outputStep P disk j p oe = some p') :
    CliThread.step (P.outputSetup disk j) (now disk p.thread) oe = some p'.thread ∧
      p'.running = (p.running && !HsCli.breaks (P.outputSetup disk j) (now disk p.thread) oe) ∧
      p'.listed = p.listed ∧ p'.ended = p.ended := by
  unfold HsCli.outputStep at h
  split at h
  · cases h
    exact ⟨‹_›, rfl, rfl, rfl⟩
  · cases h

/-- What an output plugin owes to the exit status; `lost` is `terminated` of them all. -/
structure OutputOk (j : Nat) (pc : MainPc) (lost : Bool) (p : OutputThread) : Prop where
  stop : p.thread.stop = true → 9 ≤ rank pc
  ended : p.ended = true → p.thread.pc = .exited ∨ p.thread.pc = .failed
  failed : p.thread.pc = .failed → p.running = false
  unlisted : p.listed = false → p.ended = true ∧ (p.running = true ∨ lost = true)
  joined : pastOutput j pc → p.listed = false

theorem OutputsDown.ok (h : OutputsDown P s) (hj : j < P.outputCap) :
    OutputOk j s.main s.outputsTerminated (s.outputs j) :=
  ⟨h.stop j hj, h.ended j hj, h.failed j hj, h.unlisted j hj, h.joined j hj⟩

theorem OutputsDown.of_ok (h : ∀ j < P.outputCap, OutputOk j s.main s.outputsTerminated (s.outputs j))
    (hstatus : s.main = .exited → s.outputsTerminated = true → s.rv.testBit 3 = true) : OutputsDown P s :=
  ⟨fun j hj => (h j hj).stop, fun j hj => (h j hj).ended, fun j hj => (h j hj).failed,
    fun j hj => (h j hj).unlisted, fun j hj => (h j hj).joined, hstatus⟩

theorem OutputOk.lose (h : OutputOk j pc lost p) : OutputOk j pc true p :=
  ⟨h.stop, h.ended, h.failed, fun hl => ⟨(h.unlisted hl).1, .inr rfl⟩, h.joined⟩

/-- One output plugin is replaced. -/
theorem OutputsDown.replace (hs : s'.outputs = Function.update s.outputs j p)
    (hp : j < P.outputCap → OutputOk j s'.main s'.outputsTerminated p)
    (hother : ∀ n < P.outputCap, n ≠ j → OutputOk n s'.main s'.outputsTerminated (s.outputs n))
    (hstatus : s'.main = .exited → s'.outputsTerminated = true → s'.rv.testBit 3 = true) :
    OutputsDown P s' := by
  have hall := (Function.forall_update_iff s.outputs fun n p => n < P.outputCap →
    OutputOk n s'.main s'.outputsTerminated p).mpr ⟨hp, fun n he hn => hother n hn he⟩
  refine .of_ok (fun n hn => ?_) hstatus
  rw [hs]
  exact hall n hn

theorem OutputsDown.update (h : OutputsDown P s) (j : Nat) (p : OutputThread)
    (hp : j < P.outputCap → OutputOk j s.main s.outputsTerminated p)
    (hs : s' = { s with outputs := Function.update s.outputs j p }) : OutputsDown P s' := by
  subst hs
  exact .replace rfl hp (fun n hn _ => h.ok hn) h.status

theorem OutputsDown.frame (h : OutputsDown P s) (ho : s'.outputs = s.outputs)
    (ht : s'.outputsTerminated = s.outputsTerminated)
    (hpast : ∀ j < P.outputCap, pastOutput j s'.main → pastOutput j s.main)
    (hstop : 9 ≤ rank s.main → 9 ≤ rank s'.main)
    (hrv : s'.main = .exited → s.outputsTerminated = true → s'.rv.testBit 3 = true) : OutputsDown P s' := by
  refine .of_ok (fun j hj => ?_) fun hm ho => hrv hm (ht ▸ ho)
  rw [ho, ht]
  have hok := h.ok hj
  exact ⟨fun hs => hstop (hok.stop hs), hok.ended, hok.failed, hok.unlisted,
    fun hp => hok.joined (hpast j hj hp)⟩

/-- A plugin whose thread has not ended is on the list. -/
theorem OutputOk.listed {pc : MainPc} (hok : OutputOk j pc lost p) (h : p.ended = false) :
    p.listed = true ∧ ¬pastOutput j pc := by
  have hl : p.listed = true := by
    cases hl : p.listed with
    | true => rfl
    | false =>
      rw [(hok.unlisted hl).1] at h
      cases h
  refine ⟨hl, fun hp => ?_⟩
  rw [hok.joined hp] at hl
  cases hl

theorem OutputOk.step {pc : MainPc} {oe : CliThread.Event} (hok : OutputOk j pc lost p)
    (h : HsCli.outputStep P disk j p oe = some p') (he : ofLoop oe = true) : OutputOk j pc lost p' := by
  obtain ⟨hthread, hrunning, hlisted, hended⟩ := outputStep_some h
  obtain ⟨hexited, hfailed⟩ := step_pc hthread he
  have hnot : p.ended = false := Bool.eq_false_iff.mpr fun hend => (hok.ended hend).elim hexited hfailed
  obtain ⟨hl, hpast⟩ := hok.listed hnot
  refine ⟨fun hs => hok.stop ?_, fun hend => ?_, fun hf => ?_, fun hl' => ?_, fun hp => absurd hp hpast⟩
  · rw [← hs]
    exact (keeps_of_step hthread he).1.symm
  · rw [hended, hnot] at hend
    cases hend
  · rw [hrunning, breaks_of_failed rfl hthread he hf]
    exact Bool.and_false _
  · rw [hlisted, hl] at hl'
    cases hl'

/-- The thread ends; it was told to stop. -/
theorem OutputOk.finish {pc : MainPc} (hok : OutputOk j pc lost p) (hend : p.ended = false)
    (hpc : p.thread.pc = .exited ∨ p.thread.pc = .failed) (fatal : Bool) :
    OutputOk j pc lost { p with running := p.running && !fatal, ended := true } := by
  refine ⟨hok.stop, fun _ => hpc, fun hf => ?_, fun hl => ?_, hok.joined⟩
  · change (p.running && !fatal) = false
    rw [hok.failed hf, Bool.false_and]
  · change p.listed = false at hl
    rw [(hok.listed hend).1] at hl
    cases hl

/-- The thread takes its plugin off the list. -/
theorem OutputsDown.leave (h : OutputsDown P s) (hj : j < P.outputCap) (hend : (s.outputs j).ended = false)
    (hpc : (s.outputs j).thread.pc = .exited ∨ (s.outputs j).thread.pc = .failed) (fatal : Bool) :
    OutputsDown P { s with
      outputs := Function.update s.outputs j
        { s.outputs j with running := (s.outputs j).running && !fatal, listed := false, ended := true }
      outputsTerminated := true } := by
  have hok := h.ok hj
  refine .replace rfl (fun _ => ?_) (fun n hn _ => (h.ok hn).lose) fun hm => ?_
  · exact ⟨hok.stop, fun _ => hpc, (hok.finish hend hpc fatal).failed, fun _ => ⟨rfl, .inr rfl⟩, fun _ => rfl⟩
  · exact absurd (.inl (by rw [show s.main = .exited from hm]; decide)) (hok.listed hend).2

theorem OutputsDown.moves (h : OutputsDown P s) (hm : Moves P s joined s') : OutputsDown P s' := by
  cases hm with
  | stopInput hm | stoppedInputs hm | joinInput hm | leakInput hm | skipInput hm | joinedInputs hm
  | stopThread hm | stoppedThreads hm | joinThread hm | joinedThreads hm =>
    refine h.frame rfl rfl (fun j _ hp => ?_) (fun hr => ?_) fun hx => (by cases hx)
    · simp [pastOutput, rank] at hp
    · simp [hm, rank] at hr
  | @flushInput st hm =>
    cases st with
    | service | inputs | analysis =>
      refine h.frame rfl rfl (fun j _ hp => ?_) (fun hr => ?_) fun hx => (by cases hx)
      · simp [pastOutput, rank] at hp
      · simp [hm, rank] at hr
    | outputs =>
      exact h.frame rfl rfl (fun j _ _ => .inl (by rw [hm]; decide)) (fun _ => by simp [rank])
        fun hx => (by cases hx)
  | @flushAnalysis st hm =>
    cases st with
    | service | inputs =>
      refine h.frame rfl rfl (fun j _ hp => ?_) (fun hr => ?_) fun hx => (by cases hx)
      · simp [pastOutput, rank, HsCli.afterPass] at hp
      · simp [hm, rank] at hr
    | analysis =>
      refine h.frame rfl rfl (fun j _ hp => ?_) (fun _ => by simp [rank, HsCli.afterPass])
        fun hx => (by cases hx)
      simp [pastOutput, rank, HsCli.afterPass] at hp
    | outputs =>
      refine h.frame rfl rfl (fun j _ _ => .inl (by rw [hm]; decide))
        (fun _ => by simp [rank, HsCli.afterPass]) fun _ ht => ?_
      change (if s.outputsTerminated = true then s.rv ||| 8 else s.rv).testBit 3 = true
      rw [if_pos ht, Nat.testBit_or, Bool.or_eq_true]
      exact .inr (by decide)
  | @stopOutput j hm hj =>
    have hstart : ∀ n, ¬pastOutput n (.stopOutputs (j + 1)) := fun n => by simp [pastOutput, rank]
    have hkeep : ∀ n < P.outputCap, OutputOk n (.stopOutputs (j + 1)) s.outputsTerminated (s.outputs n) :=
      fun n hn => ⟨fun _ => le_rfl, (h.ok hn).ended, (h.ok hn).failed, (h.ok hn).unlisted,
        fun hp => absurd hp (hstart n)⟩
    refine .replace rfl (fun hj => ?_) (fun n hn _ => hkeep n hn) fun hx => (by cases hx)
    unfold HsCli.stopOutput
    split
    · exact ⟨fun _ => le_rfl, (hkeep j hj).ended, (hkeep j hj).failed, (hkeep j hj).unlisted,
        (hkeep j hj).joined⟩
    · exact hkeep j hj
  | stoppedOutputs hm =>
    refine h.frame rfl rfl (fun n _ hp => ?_) (fun _ => by simp [rank]) fun hx => (by cases hx)
    simp [pastOutput, rank] at hp
  | @joinOutput j hm hj hend =>
    refine .replace rfl (fun hj => ?_) (fun n hn he => ?_) fun hx => (by cases hx)
    · have hok := h.ok hj
      refine ⟨fun _ => by simp [rank], hok.ended, hok.failed, fun _ => ⟨hend, ?_⟩, fun _ => rfl⟩
      cases hr : (s.outputs j).running with
      | true => exact .inl rfl
      | false => exact .inr (by simp)
    · have hok := h.ok hn
      refine ⟨fun _ => by simp [rank], hok.ended, hok.failed, fun hl => ⟨(hok.unlisted hl).1, ?_⟩,
        fun hp => hok.joined ((pastOutput_succ hm hp).resolve_right he)⟩
      exact (hok.unlisted hl).2.imp_right fun ht => by rw [ht, Bool.true_or]
  | @skipOutput j hm hj hl =>
    refine .of_ok (fun n hn => ?_) fun hx => (by cases hx)
    have hok := h.ok hn
    refine ⟨fun _ => by simp [rank], hok.ended, hok.failed, hok.unlisted, fun hp => ?_⟩
    rcases pastOutput_succ hm hp with hp | rfl
    · exact hok.joined hp
    · exact hl
  | @joinedOutputs j hm hj =>
    exact h.frame rfl rfl (fun n hn _ => .inr ⟨j, hm, hn.trans_le hj⟩) (fun _ => by simp [rank])
      fun hx => (by cases hx)

theorem OutputsDown.step (h : OutputsDown P s) (hs : Steps P s e s') : OutputsDown P s' := by
  cases hs with
  | main hm => exact h.moves hm
  | writeCheckpoints hm | shutdown hm =>
    refine h.frame rfl rfl (fun j _ hp => ?_) (fun hr => ?_) fun hx => (by cases hx)
    · simp [pastOutput, rank] at hp
    · simp [hm, rank] at hr
  | @output j _ p _ he hp => exact h.update j p (fun hj => (h.ok hj).step hp he) rfl
  | @outputStopped j fatal _ hend hpc => exact h.update j _ (fun hj => (h.ok hj).finish hend hpc fatal) rfl
  | @outputLost j fatal hj hend hpc => exact h.leave hj hend hpc fatal
  | _ => exact h.frame rfl rfl (fun _ _ hp => hp) (fun hr => hr) h.status

end

end CliExit

end Hindsight
