import Hindsight.InputPlugin
import Hindsight.Lib.Run
import Hindsight.Output
import Hindsight.OutputPlugin

/-!
# Hindsight.Pipeline

The running service as one machine: input plugins, analysis threads and output plugins write to
and read from the two queues, while the main thread walks through `hs_write_checkpoints`. An event
is one critical section of one of these threads, or stdio handing buffered bytes to a file. The
process may be killed in any state; what survives is `persisted` (`hindsight.cp`) and the bytes in
the directories of the queues.

A thread may find a message that ends anywhere, and while it waits for its first file its position
may be reset to any other. A queue rolls over in one step, to a file of its own; what the buffer for
the file name that the two queues share can do to that is in `Hindsight.OutputOpen` and
`Hindsight.AnalysisRollover`. Calls that a plugin's injection limit turns away do not reach the queue
and are not events. Positions are kept as pairs; their text form is not modelled here.

* `step`: the machine; `writeStep`: one step of `hs_write_checkpoints`.
* `step_inputQueue`, `step_analysisQueue`: every step only appends to the queues.
-/

namespace Hindsight

/-- `analysis_thread`: `msg` is the end of the message under analysis. -/
structure AnalysisThread where
  cp : Checkpoint
  msg : Option Checkpoint
  deriving DecidableEq, Repr

/-- An output plugin in the list of the plugins. -/
structure OutputSlot where
  plugin : OutputPlugin
  rmCpTerminate : Bool

/-- `cpr->values` by kind of key: plugin names, `input->analysis<i>`, `<queue>-><plugin>` and
`<queue>`. -/
structure Store (δ : Type) where
  inputs : Nat → LuaValue δ
  threads : Nat → Option Checkpoint
  outputs : Nat → Queue → Option Checkpoint
  queues : Queue → Option Checkpoint

/-- Where the main thread is in `hs_write_checkpoints`. -/
inductive WriterPc where
  | idle
  | inputStats (i : Nat)
  | inputFlush
  | analysisStats (i : Nat)
  | analysisFlush (i : Nat)
  | outputStats (j : Nat)
  | publishInput
  | publishAnalysis
  | persist
  deriving DecidableEq, Repr

/-- The input queue is flushed in this pass and `hindsight.cp` is not yet written. -/
def WriterPc.pastFlush : WriterPc → Bool
  | .idle | .inputStats _ | .inputFlush => false
  | _ => true

/-- The lengths of the three plugin lists. -/
structure Shape where
  inputCap : Nat
  threadCnt : Nat
  outputCap : Nat

/-- The service. `minInputId` and `minAnalysisId` are locals of `hs_write_checkpoints`; there is
one set of statics for each `inject_message`. -/
structure Service (δ : Type) where
  inputQueue : Output
  analysisQueue : Output
  inputs : Nat → Option (InputPlugin δ)
  threads : Nat → AnalysisThread
  outputs : Nat → Option OutputSlot
  inputBp : Backpressure
  analysisBp : Backpressure
  outputBp : Backpressure
  store : Store δ
  persisted : Store δ
  pc : WriterPc
  minInputId : Nat
  minAnalysisId : Nat

inductive ServiceEvent (δ : Type) where
  | spill (q : Queue) (n : Nat)
  | write
  | inject (i : Nat) (pb : Option (List UInt8)) (d : Option δ) (s : Option (List UInt8))
  | append (i : Nat) (env : InjectEnv)
  | inputExit (i : Nat)
  | find (i : Nat) (e : Checkpoint)
  | reset (i : Nat) (c : Checkpoint)
  | analyzeInject (i : Nat) (pb : List UInt8) (env : InjectEnv)
  | analyzed (i : Nat)
  | output (j : Nat) (e : OpEvent)
  | outputInject (j : Nat) (pb : List UInt8) (env : InjectEnv)
  | outputExit (j : Nat)

namespace Store

variable {δ : Type}

/-- `hs_update_checkpoint`. -/
def hsUpdateCheckpoint (st : Store δ) (i : Nat) (cp : IpCheckpoint δ) : Store δ :=
  { st with inputs := Function.update st.inputs i cp.toLua }

/-- Both keys of an output plugin that reads the queues of `rq`; `none` removes a key. -/
def updateOutput (st : Store δ) (j : Nat) (rq : ReadQueue) (cp : Queue → Option Checkpoint) :
    Store δ :=
  { st with
    outputs := Function.update st.outputs j fun q =>
      if rq.reads q then cp q else st.outputs j q }

end Store

namespace Service

variable {δ : Type} (cfg : HsConfig) (varint : Nat → List UInt8) (shape : Shape)

/-- `input_stats` up to the flush, for one slot. -/
def inputStats (s : Service δ) (i : Nat) : Service δ :=
  match s.inputs i with
  | some p => { s with store := s.store.hsUpdateCheckpoint i p.cp }
  | none => s

def inputFlush (s : Service δ) : Service δ :=
  { s with
    inputQueue := s.inputQueue.fflush
    store := { s.store with
      queues := Function.update s.store.queues .input (some s.inputQueue.cp) } }

/-- `analysis_stats` up to the flush, for one thread. -/
def analysisStats (s : Service δ) (i : Nat) : Service δ :=
  { s with
    minInputId := min s.minInputId (s.threads i).cp.id
    store := { s.store with
      threads := Function.update s.store.threads i (some (s.threads i).cp) } }

def analysisFlush (s : Service δ) : Service δ :=
  { s with
    analysisQueue := s.analysisQueue.fflush
    store := { s.store with
      queues := Function.update s.store.queues .analysis (some s.analysisQueue.cp) } }

/-- `output_stats` for one slot. -/
def outputStats (s : Service δ) (j : Nat) : Service δ :=
  match s.outputs j with
  | some o =>
    let p := o.plugin
    { s with
      minInputId := if p.readQueue.reads .input then min s.minInputId p.cur.input.id
        else s.minInputId
      minAnalysisId := if p.readQueue.reads .analysis then min s.minAnalysisId p.cur.analysis.id
        else s.minAnalysisId
      store := s.store.updateOutput j p.readQueue fun q => some (p.cp.get q) }
  | none => s

/-- The next step of `hs_write_checkpoints`. -/
def writeStep (s : Service δ) : Service δ :=
  match s.pc with
  | .idle => { s with minInputId := ullongMax, minAnalysisId := ullongMax, pc := .inputStats 0 }
  | .inputStats i =>
    if i < shape.inputCap then { s.inputStats i with pc := .inputStats (i + 1) }
    else { s with pc := .inputFlush }
  | .inputFlush => { s.inputFlush with pc := .analysisStats 0 }
  | .analysisStats i =>
    if i < shape.threadCnt then { s.analysisStats i with pc := .analysisFlush i }
    else { s with pc := .outputStats 0 }
  | .analysisFlush i => { s.analysisFlush with pc := .analysisStats (i + 1) }
  | .outputStats j =>
    if j < shape.outputCap then { s.outputStats j with pc := .outputStats (j + 1) }
    else { s with pc := .publishInput }
  | .publishInput =>
    { s with inputQueue := { s.inputQueue with minCpId := s.minInputId }, pc := .publishAnalysis }
  | .publishAnalysis =>
    { s with
      analysisQueue := { s.analysisQueue with minCpId := s.minAnalysisId }
      pc := .persist }
  | .persist => { s with persisted := s.store, pc := .idle }

/-- The thread of an output plugin ends: its checkpoints stay in the store, unless the plugin
terminated and is configured to drop them. -/
def outputExit (s : Service δ) (j : Nat) (o : OutputSlot) : Service δ :=
  let p := o.plugin
  let drop := !p.localStop && o.rmCpTerminate
  { s with
    outputs := Function.update s.outputs j none
    store := s.store.updateOutput j p.readQueue fun q =>
      if drop then none else some (p.cp.get q) }

def step (s : Service δ) : ServiceEvent δ → Option (Service δ)
  | .spill .input n => some { s with inputQueue := s.inputQueue.spill n }
  | .spill .analysis n => some { s with analysisQueue := s.analysisQueue.spill n }
  | .write => some (s.writeStep shape)
  | .inject i pb d str =>
    match s.inputs i with
    | some p =>
      if p.call = none then
        some { s with inputs := Function.update s.inputs i (some (p.injectMessage pb d str)) }
      else none
    | none => none
  | .append i env =>
    match s.inputs i with
    | some ⟨cp, some pb⟩ =>
      let r := injectFrame cfg varint env s.inputQueue s.inputBp pb
      some { s with
        inputQueue := r.1
        inputBp := r.2.1
        inputs := Function.update s.inputs i (some ⟨cp, none⟩) }
    | _ => none
  | .inputExit i =>
    match s.inputs i with
    | some ⟨cp, none⟩ =>
      some { s with
        store := s.store.hsUpdateCheckpoint i cp
        inputs := Function.update s.inputs i none }
    | _ => none
  | .find i e =>
    let at' := s.threads i
    if at'.msg = none then
      some { s with threads := Function.update s.threads i { at' with msg := some e } }
    else none
  | .reset i c =>
    if (s.threads i).msg = none then
      some { s with threads := Function.update s.threads i ⟨c, none⟩ }
    else none
  | .analyzeInject _ pb env =>
    let r := injectFrame cfg varint env s.analysisQueue s.analysisBp pb
    some { s with analysisQueue := r.1, analysisBp := r.2.1 }
  | .analyzed i =>
    match (s.threads i).msg with
    | some e => some { s with threads := Function.update s.threads i ⟨e, none⟩ }
    | none => none
  | .output j e =>
    match s.outputs j with
    | some o =>
      match o.plugin.step e with
      | some p =>
        some { s with outputs := Function.update s.outputs j (some { o with plugin := p }) }
      | none => none
    | none => none
  | .outputInject j pb env =>
    match s.outputs j with
    | some o =>
      if o.plugin.inPlugin then
        let r := injectFrame cfg varint env s.inputQueue s.outputBp pb
        some { s with inputQueue := r.1, outputBp := r.2.1 }
      else none
    | none => none
  | .outputExit j =>
    match s.outputs j with
    | some o => if o.plugin.pc = .exited then some (s.outputExit j o) else none
    | none => none

/-! ## What an event does -/

section Events

variable {cfg : HsConfig} {varint : Nat → List UInt8} {shape : Shape} {s s' : Service δ}
  {i j : Nat} {pb : List UInt8} {env : InjectEnv}

theorem step_inject {pb : Option (List UInt8)} {d : Option δ} {str : Option (List UInt8)}
    (h : s.step cfg varint shape (.inject i pb d str) = some s') :
    ∃ p, s.inputs i = some p ∧ p.call = none ∧
      s' = { s with inputs := Function.update s.inputs i (some (p.injectMessage pb d str)) } := by
  simp only [step] at h
  split at h
  · split at h
    · cases h
      exact ⟨_, ‹_›, ‹_›, rfl⟩
    · cases h
  · cases h

theorem step_append (h : s.step cfg varint shape (.append i env) = some s') :
    ∃ cp pb, s.inputs i = some ⟨cp, some pb⟩ ∧
      s' = { s with
        inputQueue := appendFrame cfg varint s.inputQueue pb
        inputBp := (injectFrame cfg varint env s.inputQueue s.inputBp pb).2.1
        inputs := Function.update s.inputs i (some ⟨cp, none⟩) } := by
  simp only [step] at h
  split at h
  · cases h
    exact ⟨_, _, ‹_›, rfl⟩
  · cases h

theorem step_inputExit (h : s.step cfg varint shape (.inputExit i) = some s') :
    ∃ cp, s.inputs i = some ⟨cp, none⟩ ∧
      s' = { s with
        store := s.store.hsUpdateCheckpoint i cp
        inputs := Function.update s.inputs i none } := by
  simp only [step] at h
  split at h
  · cases h
    exact ⟨_, ‹_›, rfl⟩
  · cases h

theorem step_find {e : Checkpoint} (h : s.step cfg varint shape (.find i e) = some s') :
    (s.threads i).msg = none ∧
      s' = { s with
        threads := Function.update s.threads i { s.threads i with msg := some e } } := by
  simp only [step, Option.ite_none_right_eq_some, Option.some.injEq] at h
  exact ⟨h.1, h.2.symm⟩

theorem step_reset {c : Checkpoint} (h : s.step cfg varint shape (.reset i c) = some s') :
    (s.threads i).msg = none ∧
      s' = { s with threads := Function.update s.threads i ⟨c, none⟩ } := by
  simp only [step, Option.ite_none_right_eq_some, Option.some.injEq] at h
  exact ⟨h.1, h.2.symm⟩

theorem step_analyzed (h : s.step cfg varint shape (.analyzed i) = some s') :
    ∃ e, (s.threads i).msg = some e ∧
      s' = { s with threads := Function.update s.threads i ⟨e, none⟩ } := by
  simp only [step] at h
  split at h
  · cases h
    exact ⟨_, ‹_›, rfl⟩
  · cases h

theorem step_output {e : OpEvent} (h : s.step cfg varint shape (.output j e) = some s') :
    ∃ o p, s.outputs j = some o ∧ o.plugin.step e = some p ∧
      s' = { s with outputs := Function.update s.outputs j (some { o with plugin := p }) } := by
  simp only [step] at h
  split at h
  · split at h
    · cases h
      exact ⟨_, _, ‹_›, ‹_›, rfl⟩
    · cases h
  · cases h

theorem step_outputInject (h : s.step cfg varint shape (.outputInject j pb env) = some s') :
    ∃ o, s.outputs j = some o ∧ o.plugin.inPlugin = true ∧
      s' = { s with
        inputQueue := appendFrame cfg varint s.inputQueue pb
        outputBp := (injectFrame cfg varint env s.inputQueue s.outputBp pb).2.1 } := by
  simp only [step] at h
  split at h
  · split at h
    · cases h
      exact ⟨_, ‹_›, ‹_›, rfl⟩
    · cases h
  · cases h

theorem step_outputExit (h : s.step cfg varint shape (.outputExit j) = some s') :
    ∃ o, s.outputs j = some o ∧ o.plugin.pc = .exited ∧ s' = s.outputExit j o := by
  simp only [step] at h
  split at h
  · split at h
    · cases h
      exact ⟨_, ‹_›, ‹_›, rfl⟩
    · cases h
  · cases h

end Events

/-! ## The queues only grow -/

section Queues

variable {cfg : HsConfig} {varint : Nat → List UInt8} {shape : Shape} {s s' : Service δ}
  {e : ServiceEvent δ}

/-- The events in which a thread changes neither queue. -/
def quiet : ServiceEvent δ → Bool
  | .inject _ _ _ _ | .inputExit _ | .find _ _ | .reset _ _ | .analyzed _ | .output _ _
  | .outputExit _ => true
  | _ => false

theorem step_quiet (h : s.step cfg varint shape e = some s') (he : quiet e = true) :
    s'.inputQueue = s.inputQueue ∧ s'.analysisQueue = s.analysisQueue := by
  cases e with
  | spill | write | append | analyzeInject | outputInject => cases he
  | inject i pb d str => obtain ⟨_, -, -, rfl⟩ := step_inject h; exact ⟨rfl, rfl⟩
  | inputExit i => obtain ⟨_, -, rfl⟩ := step_inputExit h; exact ⟨rfl, rfl⟩
  | find i e => obtain ⟨-, rfl⟩ := step_find h; exact ⟨rfl, rfl⟩
  | reset i c => obtain ⟨-, rfl⟩ := step_reset h; exact ⟨rfl, rfl⟩
  | analyzed i => obtain ⟨_, -, rfl⟩ := step_analyzed h; exact ⟨rfl, rfl⟩
  | output j e => obtain ⟨_, _, -, -, rfl⟩ := step_output h; exact ⟨rfl, rfl⟩
  | outputExit j => obtain ⟨_, -, -, rfl⟩ := step_outputExit h; exact ⟨rfl, rfl⟩

/-- Only the main thread moves on in `hs_write_checkpoints` and writes `hindsight.cp`. -/
theorem step_writer (h : s.step cfg varint shape e = some s') (he : e ≠ .write) :
    s'.pc = s.pc ∧ s'.persisted = s.persisted := by
  cases e with
  | write => exact absurd rfl he
  | spill q n => cases q <;> cases h <;> exact ⟨rfl, rfl⟩
  | inject i pb d str => obtain ⟨_, -, -, rfl⟩ := step_inject h; exact ⟨rfl, rfl⟩
  | append i env => obtain ⟨_, _, -, rfl⟩ := step_append h; exact ⟨rfl, rfl⟩
  | inputExit i => obtain ⟨_, -, rfl⟩ := step_inputExit h; exact ⟨rfl, rfl⟩
  | find i e => obtain ⟨-, rfl⟩ := step_find h; exact ⟨rfl, rfl⟩
  | reset i c => obtain ⟨-, rfl⟩ := step_reset h; exact ⟨rfl, rfl⟩
  | analyzeInject i pb env => cases h; exact ⟨rfl, rfl⟩
  | analyzed i => obtain ⟨_, -, rfl⟩ := step_analyzed h; exact ⟨rfl, rfl⟩
  | output j e => obtain ⟨_, _, -, -, rfl⟩ := step_output h; exact ⟨rfl, rfl⟩
  | outputInject j pb env => obtain ⟨_, -, -, rfl⟩ := step_outputInject h; exact ⟨rfl, rfl⟩
  | outputExit j => obtain ⟨_, -, -, rfl⟩ := step_outputExit h; exact ⟨rfl, rfl⟩

@[simp] theorem inputQueue_inputStats (s : Service δ) (i : Nat) :
    (s.inputStats i).inputQueue = s.inputQueue := by
  unfold inputStats; split <;> rfl

@[simp] theorem analysisQueue_inputStats (s : Service δ) (i : Nat) :
    (s.inputStats i).analysisQueue = s.analysisQueue := by
  unfold inputStats; split <;> rfl

@[simp] theorem inputQueue_outputStats (s : Service δ) (j : Nat) :
    (s.outputStats j).inputQueue = s.inputQueue := by
  unfold outputStats; split <;> rfl

@[simp] theorem analysisQueue_outputStats (s : Service δ) (j : Nat) :
    (s.outputStats j).analysisQueue = s.analysisQueue := by
  unfold outputStats; split <;> rfl

theorem inputQueue_writeStep (s : Service δ) :
    (s.writeStep shape).inputQueue = match s.pc with
      | .inputFlush => s.inputQueue.fflush
      | .publishInput => { s.inputQueue with minCpId := s.minInputId }
      | _ => s.inputQueue := by
  unfold writeStep
  cases s.pc with
  | inputStats | analysisStats | outputStats => simp only; split <;> simp [analysisStats]
  | _ => rfl

theorem analysisQueue_writeStep (s : Service δ) :
    (s.writeStep shape).analysisQueue = match s.pc with
      | .analysisFlush _ => s.analysisQueue.fflush
      | .publishAnalysis => { s.analysisQueue with minCpId := s.minAnalysisId }
      | _ => s.analysisQueue := by
  unfold writeStep
  cases s.pc with
  | inputStats | analysisStats | outputStats => simp only; split <;> simp [analysisStats]
  | _ => rfl

variable (shape) in
theorem writeStep_inputQueue (ho : s.inputQueue.Open) :
    (s.writeStep shape).inputQueue.Open ∧
      Output.Grows s.inputQueue (s.writeStep shape).inputQueue := by
  rw [inputQueue_writeStep]
  split
  · exact ⟨Output.open_fflush ho, Output.grows_fflush ho⟩
  · exact ⟨ho, Output.Grows.refl _⟩
  · exact ⟨ho, Output.Grows.refl _⟩

variable (shape) in
theorem writeStep_analysisQueue (ho : s.analysisQueue.Open) :
    (s.writeStep shape).analysisQueue.Open ∧
      Output.Grows s.analysisQueue (s.writeStep shape).analysisQueue := by
  rw [analysisQueue_writeStep]
  split
  · exact ⟨Output.open_fflush ho, Output.grows_fflush ho⟩
  · exact ⟨ho, Output.Grows.refl _⟩
  · exact ⟨ho, Output.Grows.refl _⟩

variable (shape) in
/-- The plugins and threads are not touched by the writer. -/
theorem plugins_writeStep (s : Service δ) :
    (s.writeStep shape).inputs = s.inputs ∧ (s.writeStep shape).threads = s.threads ∧
      (s.writeStep shape).outputs = s.outputs := by
  unfold writeStep inputStats outputStats
  cases s.pc with
  | inputStats i => simp only; split <;> (try split) <;> exact ⟨rfl, rfl, rfl⟩
  | outputStats j => simp only; split <;> (try split) <;> exact ⟨rfl, rfl, rfl⟩
  | analysisStats i => simp only; split <;> exact ⟨rfl, rfl, rfl⟩
  | _ => exact ⟨rfl, rfl, rfl⟩

variable (shape) in
theorem persisted_writeStep (s : Service δ) :
    (s.writeStep shape).persisted = if s.pc = .persist then s.store else s.persisted := by
  unfold writeStep inputStats outputStats
  cases s.pc with
  | inputStats i => simp only [reduceCtorEq, if_false]; split <;> (try split) <;> rfl
  | outputStats j => simp only [reduceCtorEq, if_false]; split <;> (try split) <;> rfl
  | analysisStats i => simp only; split <;> rfl
  | _ => rfl

/-- Only the flush itself takes the writer past it. -/
theorem pastFlush_writeStep (h : s.pc ≠ .inputFlush) (hp : s.pc.pastFlush = false) :
    (s.writeStep shape).pc.pastFlush = false := by
  unfold writeStep
  cases hpc : s.pc with
  | inputFlush => exact absurd hpc h
  | inputStats i => simp only; split <;> rfl
  | idle | persist => rfl
  | analysisStats | analysisFlush | outputStats | publishInput | publishAnalysis =>
    rw [hpc] at hp
    cases hp

theorem step_inputQueue (h : s.step cfg varint shape e = some s') (ho : s.inputQueue.Open) :
    s'.inputQueue.Open ∧ Output.Grows s.inputQueue s'.inputQueue := by
  by_cases hq : quiet e = true
  · rw [(step_quiet h hq).1]
    exact ⟨ho, Output.Grows.refl _⟩
  cases e with
  | inject | inputExit | find | reset | analyzed | output | outputExit => exact absurd rfl hq
  | spill q n =>
    cases q <;> cases h
    · exact ⟨Output.open_spill ho n, Output.grows_spill ho n⟩
    · exact ⟨ho, Output.Grows.refl _⟩
  | write => cases h; exact writeStep_inputQueue shape ho
  | append i env =>
    obtain ⟨_, pb, -, rfl⟩ := step_append h
    exact ⟨open_appendFrame ho _, grows_append ho _⟩
  | analyzeInject i pb env => cases h; exact ⟨ho, Output.Grows.refl _⟩
  | outputInject j pb env =>
    obtain ⟨_, -, -, rfl⟩ := step_outputInject h
    exact ⟨open_appendFrame ho _, grows_append ho _⟩

theorem step_analysisQueue (h : s.step cfg varint shape e = some s')
    (ho : s.analysisQueue.Open) :
    s'.analysisQueue.Open ∧ Output.Grows s.analysisQueue s'.analysisQueue := by
  by_cases hq : quiet e = true
  · rw [(step_quiet h hq).2]
    exact ⟨ho, Output.Grows.refl _⟩
  cases e with
  | inject | inputExit | find | reset | analyzed | output | outputExit => exact absurd rfl hq
  | spill q n =>
    cases q <;> cases h
    · exact ⟨ho, Output.Grows.refl _⟩
    · exact ⟨Output.open_spill ho n, Output.grows_spill ho n⟩
  | write => cases h; exact writeStep_analysisQueue shape ho
  | append i env =>
    obtain ⟨_, pb, -, rfl⟩ := step_append h
    exact ⟨ho, Output.Grows.refl _⟩
  | analyzeInject i pb env => cases h; exact ⟨open_appendFrame ho _, grows_append ho _⟩
  | outputInject j pb env =>
    obtain ⟨_, -, -, rfl⟩ := step_outputInject h
    exact ⟨ho, Output.Grows.refl _⟩

end Queues

/-! ## Start -/

/-- `find_first_id`. -/
def findFirstId (d : Dir) : Nat :=
  let id := d.ids.foldl (fun first id => if id < first then id else first) ullongMax
  if id = ullongMax then 0 else id

/-- The service after start-up: both queues initialised on their directories, the store as loaded
from `hindsight.cp`, the threads where `hs_lookup_input_checkpoint` puts them, the input plugins
with their checkpoints, and the output plugins. -/
def start (inputDir analysisDir : Dir) (st : Store δ) (inputs : Nat → Option (IpCheckpoint δ))
    (outputs : Nat → Option OutputSlot) : Service δ where
  inputQueue := hsInitOutput inputDir
  analysisQueue := hsInitOutput analysisDir
  inputs i := (inputs i).map fun cp => ⟨cp, none⟩
  threads i := ⟨(st.threads i).getD ⟨findFirstId inputDir, 0⟩, none⟩
  outputs := outputs
  inputBp := ⟨0, false⟩
  analysisBp := ⟨0, false⟩
  outputBp := ⟨0, false⟩
  store := st
  persisted := st
  pc := .idle
  minInputId := ullongMax
  minAnalysisId := ullongMax

end Service

end Hindsight
