import Hindsight.CliDrain

/-!
# Hindsight.CliService

The whole of `hindsight_cli`: the input plugins, the analysis threads with any number of plugins on each, the output
plugins, the two queues, and `main`, which takes them down one after the other once the inputs are done or a signal
comes. The plugins are those of the start; none is loaded while the program runs.

* `PluginThread`: the reader of a thread and what it keeps of its plugins, all of which get the same messages
  (`seenBy`).
* `MainPc`: the loop of `main` and the cascade after it. The input plugins are joined and a checkpoint pass flushes the
  queues; then the analysis threads are stopped and joined, again with a pass, then the output plugins.
* `step`: all that can happen. Who runs next, what the plugins inject and answer, and when the stream buffers spill
  is in the events.
-/

namespace Hindsight

namespace Dir

/-- Where a directory ends. -/
def tip (d : Dir) : Checkpoint := ⟨findLastId d, (d.bytes (findLastId d)).length⟩

end Dir

namespace CliService

open CliThread

/-! ## The plugins -/

/-- Where the thread of an input plugin is: in its loop, out of it, or gone. `failed` is a result above zero, `told`
that the loop was left for the shutdown semaphore. -/
inductive InputPc where
  | running
  | leaving (failed told : Bool)
  | gone
  deriving DecidableEq, Repr

/-- `shutdown` tells that the semaphore was posted, `listed` that the plugin is on the list. -/
structure InputThread where
  pc : InputPc
  shutdown : Bool
  listed : Bool

/-- What an analysis thread keeps of a plugin. One that is not `alive` was taken off the list. -/
structure AnalysisPlugin where
  alive : Bool
  tickerExpires : Nat

/-- `reader` is the thread as it runs with no plugin on it. -/
structure PluginThread where
  reader : Thread
  plugins : Nat → AnalysisPlugin
  terminated : Bool
  ended : Bool

/-- `running` is `lsb_heka_is_running`. -/
structure OutputThread where
  thread : Thread
  running : Bool
  listed : Bool
  ended : Bool

/-- What a thread is to one of its plugins. -/
def seenBy (p : AnalysisPlugin) (t : Thread) : Thread :=
  { t with alive := p.alive, tickerExpires := p.tickerExpires }

/-- A step in the loop of an analysis thread, with what comes of it for each plugin. -/
inductive ReaderEvent where
  | head
  | poll (n : Nat)
  | openNext
  | choose (fatal : Nat → Bool)
  | answer (v : Nat → Verdict) (fatal : Nat → Bool)

def ReaderEvent.of (k : Nat) : ReaderEvent → CliThread.Event
  | head => .head
  | poll n => .poll n
  | openNext => .openNext
  | choose fatal => .choose (fatal k)
  | answer v fatal => .answer (v k) (fatal k)

/-! ## The program -/

/-- The configuration, the plugins and the directories `hindsight_cli` starts with. -/
structure Program where
  cfg : HsConfig
  lib : SandboxLib
  timestamp : List UInt8 → Int
  dirs : Queue → Dir
  clock : Nat
  inputCap : Nat
  threadCnt : Nat
  threads : 0 < threadCnt
  threadStart : Nat → Checkpoint
  pluginCnt : Nat → Nat
  analysisTicker : Nat → Nat → Nat
  outputCap : Nat
  readQueue : Nat → ReadQueue
  outputStart : Nat → Queue → Checkpoint
  outputTicker : Nat → Nat

/-- What the checkpoint pass follows. -/
inductive Stage where
  | service
  | inputs
  | analysis
  | outputs
  deriving DecidableEq, Repr

/-- Where `main` is. A checkpoint pass counts for its flushes. -/
inductive MainPc where
  | loop
  | stopInputs (i : Nat)
  | waitInputs (i : Nat)
  | flushInput (st : Stage)
  | flushAnalysis (st : Stage)
  | stopAnalysis (i : Nat)
  | waitAnalysis (i : Nat)
  | stopOutputs (j : Nat)
  | waitOutputs (j : Nat)
  | exited
  deriving DecidableEq, Repr

/-- `main` holds the `list_lock` of the input plugins. -/
def MainPc.locksInputs : MainPc → Bool
  | stopInputs _ | waitInputs _ => true
  | _ => false

/-- `main` holds the `list_lock` of the output plugins. -/
def MainPc.locksOutputs : MainPc → Bool
  | stopOutputs _ | waitOutputs _ => true
  | _ => false

structure HsCli where
  queue : Queue → Output
  inputs : Nat → InputThread
  analysis : Nat → PluginThread
  outputs : Nat → OutputThread
  main : MainPc
  inputsTerminated : Bool
  analysisTerminated : Bool
  outputsTerminated : Bool
  rv : Nat

inductive Event where
  | spill (q : Queue) (n : Nat)
  | inputInject (i : Nat) (pb : List UInt8)
  | inputLeave (i : Nat) (failed told : Bool)
  | inputDetach (i : Nat)
  | analysis (i : Nat) (e : ReaderEvent)
  | analysisInject (i : Nat) (pb : List UInt8)
  | analysisEnd (i : Nat) (fatal : Nat → Bool)
  | output (j : Nat) (e : CliThread.Event)
  | outputInject (j : Nat) (pb : List UInt8)
  | outputEnd (j : Nat) (fatal : Bool)
  | writeCheckpoints
  | shutdown
  | main (joined : Bool)

namespace Program

variable (P : Program)

def analysisSetup (disk : Queue → Dir) (i k : Nat) : Setup where
  kind := .analysis
  readQueue := .input
  single _ := rfl
  outputSize := P.cfg.outputSize
  tickerInterval := P.analysisTicker i k
  lib := P.lib
  timestamp := P.timestamp
  content := disk
  start _ := P.threadStart i

def outputSetup (disk : Queue → Dir) (j : Nat) : Setup where
  kind := .output
  readQueue := P.readQueue j
  single := single_output _
  outputSize := P.cfg.outputSize
  tickerInterval := P.outputTicker j
  lib := P.lib
  timestamp := P.timestamp
  content := disk
  start := P.outputStart j

end Program

/-- A thread that has all of the queues in view. -/
def now (disk : Queue → Dir) (t : Thread) : Thread := { t with arrived := fun q => (disk q).tip }

namespace HsCli

def disk (s : HsCli) (q : Queue) : Dir := (s.queue q).dir

variable (P : Program)

def inject (s : HsCli) (q : Queue) (pb : List UInt8) : HsCli :=
  { s with queue := Function.update s.queue q (appendFrame P.cfg P.lib.varint (s.queue q) pb) }

def flush (s : HsCli) (q : Queue) : HsCli :=
  { s with queue := Function.update s.queue q (s.queue q).fflush }

/-- What the thread keeps of plugin `k` after the step `e`. -/
def pluginStep (disk : Queue → Dir) (i k : Nat) (t : Thread) (e : ReaderEvent) (p : AnalysisPlugin) :
    AnalysisPlugin :=
  match CliThread.step (P.analysisSetup disk i k) (seenBy p (now disk t)) (e.of k) with
  | some t' => ⟨t'.alive, t'.tickerExpires⟩
  | none => p

/-- The loop of analysis thread `i`. A plugin that is terminated on the way marks the thread. -/
def analysisStep (disk : Queue → Dir) (i : Nat) (t : PluginThread) (e : ReaderEvent) :
    Option PluginThread :=
  match CliThread.step (P.analysisSetup disk i 0) (now disk t.reader) (e.of 0) with
  | some reader =>
    let plugins := fun k => pluginStep P disk i k t.reader e (t.plugins k)
    some { t with
      reader := reader
      plugins := plugins
      terminated := t.terminated ||
        (List.range (P.pluginCnt i)).any fun k => (t.plugins k).alive && !(plugins k).alive }
  | none => none

/-- `shutdown_timer_event` of an analysis thread that left its loop, and the end of the thread. -/
def analysisEnd (i : Nat) (fatal : Nat → Bool) (t : PluginThread) : PluginThread :=
  { t with
    plugins := fun k => { t.plugins k with alive := (t.plugins k).alive && !fatal k }
    terminated := t.terminated ||
      (List.range (P.pluginCnt i)).any fun k => (t.plugins k).alive && fatal k
    ended := true }

/-- A call of the sandbox fails in the step `e` of an output thread. -/
def breaks (S : Setup) (t : Thread) : CliThread.Event → Bool
  | .answer v fatal => v == .fatal || (t.fires S && fatal)
  | .choose fatal =>
    (t.oldest S).isNone && (t.side .input).bytesRead == 0 && (t.side .analysis).bytesRead == 0 &&
      t.fires S && fatal
  | _ => false

def outputStep (disk : Queue → Dir) (j : Nat) (p : OutputThread) (e : CliThread.Event) :
    Option OutputThread :=
  match CliThread.step (P.outputSetup disk j) (now disk p.thread) e with
  | some t =>
    some { p with
      thread := t
      running := p.running && !breaks (P.outputSetup disk j) (now disk p.thread) e }
  | none => none

/-- The rest of `input_thread` of an output plugin: `shutdown_timer_event`, and a thread that was not told to
stop takes its plugin off the list. -/
def outputEnd (s : HsCli) (j : Nat) (fatal : Bool) : Option HsCli :=
  let p := s.outputs j
  let p' := { p with running := p.running && !fatal, ended := true }
  if p.thread.localStop then some { s with outputs := Function.update s.outputs j p' }
  else if s.main.locksOutputs then none
  else some { s with
    outputs := Function.update s.outputs j { p' with listed := false }
    outputsTerminated := true }

/-- `join_thread` of an input plugin, which may give up. -/
def joinInput (s : HsCli) (i : Nat) (joined : Bool) : Option HsCli :=
  let p := s.inputs i
  if joined then
    match p.pc with
    | .leaving failed true =>
      some { s with
        inputs := Function.update s.inputs i ⟨.gone, p.shutdown, false⟩
        inputsTerminated := s.inputsTerminated || failed }
    | _ => none
  else some { s with inputs := Function.update s.inputs i { p with listed := false } }

/-- What `main` does after a checkpoint pass. -/
def afterPass (s : HsCli) : Stage → HsCli
  | .service => { s with main := .loop }
  | .inputs => { s with main := .stopAnalysis 0, rv := if s.inputsTerminated then 2 else s.rv }
  | .analysis => { s with main := .stopOutputs 0 }
  | .outputs => { s with main := .exited, rv := if s.outputsTerminated then s.rv ||| 8 else s.rv }

def stopInput (p : InputThread) : InputThread := { p with shutdown := p.shutdown || p.listed }

def stopThread (t : PluginThread) : PluginThread := { t with reader := { t.reader with stop := true } }

def stopOutput (p : OutputThread) : OutputThread :=
  if p.listed then { p with thread := { p.thread with stop := true } } else p

/-- The next action of `main`. -/
def mainStep (s : HsCli) (joined : Bool) : Option HsCli :=
  match s.main with
  | .loop | .exited => none
  | .stopInputs i =>
    if i < P.inputCap then
      some { s with
        inputs := Function.update s.inputs i (stopInput (s.inputs i))
        main := .stopInputs (i + 1) }
    else some { s with main := .waitInputs 0 }
  | .waitInputs i =>
    if i < P.inputCap then
      if (s.inputs i).listed then
        (s.joinInput i joined).map fun s => { s with main := .waitInputs (i + 1) }
      else some { s with main := .waitInputs (i + 1) }
    else some { s with main := .flushInput .inputs }
  | .flushInput st => some { s.flush .input with main := .flushAnalysis st }
  | .flushAnalysis st => some ((s.flush .analysis).afterPass st)
  | .stopAnalysis i =>
    if i < P.threadCnt then
      some { s with
        analysis := Function.update s.analysis i (stopThread (s.analysis i))
        main := .stopAnalysis (i + 1) }
    else some { s with main := .waitAnalysis 0 }
  | .waitAnalysis i =>
    if i < P.threadCnt then
      if (s.analysis i).ended then
        some { s with
          analysisTerminated := s.analysisTerminated || (s.analysis i).terminated
          main := .waitAnalysis (i + 1) }
      else none
    else some { s with
      rv := if s.analysisTerminated then s.rv ||| 4 else s.rv
      main := .flushInput .analysis }
  | .stopOutputs j =>
    if j < P.outputCap then
      some { s with
        outputs := Function.update s.outputs j (stopOutput (s.outputs j))
        main := .stopOutputs (j + 1) }
    else some { s with main := .waitOutputs 0 }
  | .waitOutputs j =>
    if j < P.outputCap then
      if (s.outputs j).listed then
        if (s.outputs j).ended then
          some { s with
            outputs := Function.update s.outputs j { s.outputs j with listed := false }
            outputsTerminated := s.outputsTerminated || !(s.outputs j).running
            main := .waitOutputs (j + 1) }
        else none
      else some { s with main := .waitOutputs (j + 1) }
    else some { s with main := .flushInput .outputs }

end HsCli

open HsCli

/-- The events of the loop of an output thread. -/
def ofLoop : CliThread.Event → Bool
  | .stop | .arrive _ _ => false
  | _ => true

def step (P : Program) (s : HsCli) : Event → Option HsCli
  | .spill q n => some { s with queue := Function.update s.queue q ((s.queue q).spill n) }
  | .inputInject i pb =>
    if i < P.inputCap ∧ (s.inputs i).pc = .running then some (s.inject P .input pb) else none
  | .inputLeave i failed told =>
    if i < P.inputCap ∧ (s.inputs i).pc = .running ∧ (told = true → (s.inputs i).shutdown = true) then
      some { s with inputs := Function.update s.inputs i { s.inputs i with pc := .leaving failed told } }
    else none
  | .inputDetach i =>
    match (s.inputs i).pc with
    | .leaving failed false =>
      if s.main.locksInputs then none
      else some { s with
        inputs := Function.update s.inputs i ⟨.gone, (s.inputs i).shutdown, false⟩
        inputsTerminated := s.inputsTerminated || failed }
    | _ => none
  | .analysis i e =>
    if i < P.threadCnt then
      (analysisStep P s.disk i (s.analysis i) e).map fun t =>
        { s with analysis := Function.update s.analysis i t }
    else none
  | .analysisInject i pb =>
    if i < P.threadCnt ∧ (s.analysis i).ended = false then some (s.inject P .analysis pb) else none
  | .analysisEnd i fatal =>
    if i < P.threadCnt ∧ (s.analysis i).reader.pc = .exited ∧ (s.analysis i).ended = false then
      some { s with analysis := Function.update s.analysis i (analysisEnd P i fatal (s.analysis i)) }
    else none
  | .output j e =>
    if j < P.outputCap ∧ ofLoop e = true then
      (outputStep P s.disk j (s.outputs j) e).map fun p =>
        { s with outputs := Function.update s.outputs j p }
    else none
  | .outputInject j pb =>
    if j < P.outputCap ∧ (s.outputs j).ended = false then some (s.inject P .input pb) else none
  | .outputEnd j fatal =>
    if j < P.outputCap ∧ (s.outputs j).ended = false ∧
        ((s.outputs j).thread.pc = .exited ∨ (s.outputs j).thread.pc = .failed) then
      s.outputEnd j fatal
    else none
  | .writeCheckpoints => if s.main = .loop then some { s with main := .flushInput .service } else none
  | .shutdown => if s.main = .loop then some { s with main := .stopInputs 0 } else none
  | .main joined => s.mainStep P joined

/-- `main` ahead of its loop, with all plugins started. -/
def start (P : Program) : HsCli where
  queue q := hsInitOutput (P.dirs q)
  inputs i := ⟨if i < P.inputCap then .running else .gone, false, decide (i < P.inputCap)⟩
  analysis i :=
    { reader := { Thread.init (P.analysisSetup P.dirs i 0) P.clock with alive := false }
      plugins := fun _ => ⟨true, 0⟩
      terminated := false
      ended := false }
  outputs j := ⟨Thread.init (P.outputSetup P.dirs j) P.clock, true, decide (j < P.outputCap), false⟩
  main := .loop
  inputsTerminated := false
  analysisTerminated := false
  outputsTerminated := false
  rv := 0

end CliService

end Hindsight
