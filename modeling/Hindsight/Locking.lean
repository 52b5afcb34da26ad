import Hindsight.Lib.Locks

/-!
# Hindsight.Locking

The mutexes of the process. Each function is its lock footprint: which mutexes it takes, in which order and inside
which, with the branches and loops around them; what it computes is left out. The threads are the main
thread, the signal handler, the analysis threads and the threads of any number of input and output plugins; all
stand ready from the start, and the calls into sandboxes inject, report and log as they like.

Waiting for a thread (`pthread_join`, `pthread_timedjoin_np`) or for a semaphore is no mutex and left out, and no
thread is cancelled inside a section. A sandbox does not inject while it is being created.

* `rank`: the order in which the source takes its mutexes.
* `program_ordered`: every function keeps to it.
* `never_deadlocked`: no interleaving is stuck, no mutex has two holders, and all threads can reach their ends.
-/

namespace Hindsight

namespace Locking

open Locks Locks.Code

/-- The mutexes; plugins and analysis threads are numbered. -/
inductive Lock
  | inputList
  | outputList
  | analysisList (tid : Nat)
  | analysisCp (tid : Nat)
  | outputCp (plugin : Nat)
  | reader
  | inputCp (plugin : Nat)
  | inputQueue
  | analysisQueue
  | logger
  deriving DecidableEq, Repr

/-- The order of the mutexes; those of one rank are never held together. -/
def rank : Lock → Nat
  | .inputList | .outputList | .analysisList _ => 0
  | .analysisCp _ | .outputCp _ => 1
  | .reader => 2
  | .inputCp _ => 3
  | .inputQueue | .analysisQueue => 4
  | .logger => 5

abbrev Footprint := Code Lock

/-- `hs_log`; a severity above the log level is not logged. -/
def hsLog : Footprint := maybe (touch .logger)

/-- A function that takes no lock but that of the logger. -/
def hsLogs : Footprint := .loop hsLog

/-- A call into a sandbox, which logs and calls back. -/
def sandbox (callback : Footprint) : Footprint := .loop (.branch callback hsLog)

/-- One of the plugins the main thread deals with. -/
def onePlugin (plugins : Nat) (c : Nat → Footprint) : Footprint :=
  each (List.range plugins) fun i => maybe (c i)

/-! ## hs_checkpoint_reader -/

/-- Only the string case logs, when `malloc` fails. -/
def hsLoadCheckpoint (i : Nat) : Footprint := maybe (.locked (.inputCp i) hsLog)

def hsLookupCheckpoint (i : Nat) : Footprint := .locked .reader (hsLoadCheckpoint i)

def hsUpdateCheckpoint (i : Nat) : Footprint := .locked .reader (touch (.inputCp i))

/-- Without a position the first file is searched, or the position of the queue is looked up. -/
def hsLookupInputCheckpoint : Footprint :=
  block [touch .reader, maybe (.branch hsLog (touch .reader))]

def hsUpdateInputCheckpoint : Footprint := touch .reader

def hsOutputCheckpoints : Footprint := touch .reader

def hsRemoveCheckpoint : Footprint := .locked .reader hsLog

def hsCleanupCheckpoints : Footprint := .locked .reader hsLogs

/-! ## hs_input_plugins -/

namespace InputPlugins

def updateCheckpoint : Footprint := hsLog

/-- The queue is left alone without a message, and when the checkpoint is rejected. -/
def injectMessage (i : Nat) : Footprint :=
  block [.locked (.inputCp i) updateCheckpoint, maybe (.locked .inputQueue hsLogs)]

def destroyInputPlugin : Footprint := hsLogs

def inputThread (i : Nat) : Footprint :=
  block [hsLog,
    .loop (block [sandbox (injectMessage i), maybe (block [touch (.inputCp i), hsLogs])]),
    hsUpdateCheckpoint i,
    .branch hsLog (block [hsLogs, .locked .inputList (block [hsLogs, destroyInputPlugin])])]

def joinThread : Footprint := block [hsLogs, destroyInputPlugin]

def removePlugin : Footprint := block [hsLog, joinThread]

def removeFromInputPlugins : Footprint := .locked .inputList (maybe removePlugin)

def addToInputPlugins (i : Nat) : Footprint :=
  block [.locked .inputList hsLog, hsLookupCheckpoint i]

def hsWaitInputPlugins : Footprint := block [hsLog, .locked .inputList (.loop joinThread)]

def processLua : Footprint := block [hsLogs, .locked .inputList hsLogs]

/-- `create_input_plugin` logs; the flag `terminated` is set under the lock of the list. -/
def loadPlugin (plugins : Nat) : Footprint :=
  block [hsLogs, .branch (onePlugin plugins addToInputPlugins) (touch .inputList), hsLog]

def hsLoadInputStartup (plugins : Nat) : Footprint := block [hsLogs, .loop (loadPlugin plugins)]

def hsLoadInputDynamic (plugins : Nat) : Footprint :=
  .branch processLua
    (block [hsLogs, maybe (block [removeFromInputPlugins, hsLog, maybe (loadPlugin plugins)])])

def hsStopInputPlugins : Footprint := .locked .inputList hsLogs

end InputPlugins

/-! ## hs_analysis_plugins -/

namespace AnalysisPlugins

def injectMessage : Footprint := .locked .analysisQueue hsLogs

def removePlugin : Footprint := hsLogs

def terminateSandbox : Footprint := block [hsLogs, removePlugin]

def analyzeMessage (tid : Nat) : Footprint :=
  .locked (.analysisList tid) (.loop (block
    [maybe (block [sandbox injectMessage, hsLog]), maybe (sandbox injectMessage),
      maybe terminateSandbox]))

def shutdownTimerEvent (tid : Nat) : Footprint :=
  .locked (.analysisList tid) (.loop (block [sandbox injectMessage, maybe terminateSandbox]))

def inputThread (tid : Nat) : Footprint :=
  block [hsLog,
    .loop (block [touch (.analysisCp tid),
      .branch
        (block [hsLogs, .branch (block [analyzeMessage tid, touch (.analysisCp tid)]) hsLogs])
        (block [maybe (block [hsLookupInputCheckpoint, touch (.analysisCp tid), hsLog]), hsLogs]),
      maybe (block [analyzeMessage tid, maybe (touch (.analysisCp tid))])]),
    shutdownTimerEvent tid,
    hsLog]

def removeFromAnalysisPlugins (tid : Nat) : Footprint :=
  .locked (.analysisList tid) (maybe removePlugin)

def addToAnalysisPlugins (tid : Nat) : Footprint := .locked (.analysisList tid) hsLogs

def hsStopAnalysisPlugins (threads : Nat) : Footprint :=
  each (List.range threads) fun tid => touch (.analysisCp tid)

def hsWaitAnalysisPlugins : Footprint := hsLogs

def processLua (threads : Nat) : Footprint :=
  block [hsLogs, each (List.range threads) fun tid => .locked (.analysisList tid) hsLogs]

def leastUsedThreadId (threads : Nat) : Footprint :=
  each (List.range threads) fun tid => touch (.analysisList tid)

/-- `create_analysis_plugin` logs. -/
def loadPlugin (threads : Nat) : Footprint :=
  block [hsLogs, onePlugin threads addToAnalysisPlugins, hsLog]

def hsLoadAnalysisStartup (threads : Nat) : Footprint := block [hsLogs, .loop (loadPlugin threads)]

def hsLoadAnalysisDynamic (threads : Nat) : Footprint :=
  .branch (processLua threads)
    (block [hsLogs, maybe (leastUsedThreadId threads), hsLogs,
      maybe (block [onePlugin threads removeFromAnalysisPlugins, maybe (loadPlugin threads)])])

def hsStartAnalysisThreads (threads : Nat) : Footprint :=
  each (List.range threads) fun _ => hsLookupInputCheckpoint

end AnalysisPlugins

/-! ## hs_output_plugins -/

namespace OutputPlugins

def injectMessage : Footprint := .locked .inputQueue hsLogs

def destroyOutputPlugin : Footprint := hsLogs

def updateCheckpoint (i : Nat) : Footprint := touch (.outputCp i)

def removeCheckpointQ : Footprint := block [maybe hsRemoveCheckpoint, maybe hsRemoveCheckpoint]

/-- The callback moves the checkpoint in either of its branches. -/
def updateCheckpointCallback (i : Nat) : Footprint :=
  .branch (touch (.outputCp i)) (maybe (updateCheckpoint i))

def sandboxCall (i : Nat) : Footprint :=
  sandbox (.branch injectMessage (updateCheckpointCallback i))

def outputMessage (i : Nat) : Footprint :=
  block [maybe (block [sandboxCall i, hsLog, maybe (touch (.outputCp i))]),
    maybe (updateCheckpoint i), maybe (sandboxCall i), maybe (touch (.outputCp i)), hsLog]

/-- One of the two readers; while it has no file its position may be reset. -/
def readQueue (i : Nat) : Footprint :=
  .branch hsLogs (block [maybe (block [hsLookupInputCheckpoint, touch (.outputCp i), hsLog]), hsLogs])

def retry (i : Nat) : Footprint :=
  .loop (block [hsLog, outputMessage i, maybe (touch (.outputCp i))])

def inputThread (i : Nat) : Footprint :=
  block [hsLog,
    .loop (block [touch (.outputCp i), maybe (readQueue i), maybe (readQueue i),
      .branch (block [touch (.outputCp i), outputMessage i, maybe (retry i)])
        (maybe (outputMessage i))]),
    maybe (block [sandboxCall i, hsLog]),
    maybe hsUpdateInputCheckpoint, maybe hsUpdateInputCheckpoint,
    .branch hsLog
      (block [hsLogs, maybe removeCheckpointQ,
        .locked .outputList (block [hsLogs, destroyOutputPlugin])])]

/-- `pthread_join` is left out. -/
def removePlugin (i : Nat) : Footprint := block [touch (.outputCp i), hsLog, destroyOutputPlugin]

def removeFromOutputPlugins (plugins : Nat) : Footprint :=
  .locked .outputList (onePlugin plugins removePlugin)

def addToOutputPlugins : Footprint :=
  block [.locked .outputList hsLog, .branch hsLookupInputCheckpoint removeCheckpointQ,
    .branch hsLookupInputCheckpoint removeCheckpointQ]

def hsWaitOutputPlugins : Footprint :=
  .locked .outputList (.loop (block [hsLog, destroyOutputPlugin]))

def processLua : Footprint := block [hsLogs, .locked .outputList hsLogs]

def loadPlugin : Footprint :=
  block [hsLogs, .branch addToOutputPlugins (touch .outputList), hsLog]

def hsLoadOutputStartup : Footprint := block [hsLogs, .loop loadPlugin]

def removeCheckpoints : Footprint := block [hsRemoveCheckpoint, hsRemoveCheckpoint]

def hsLoadOutputDynamic (plugins : Nat) : Footprint :=
  .branch processLua
    (block [hsLogs,
      .branch (block [removeFromOutputPlugins plugins, maybe removeCheckpoints])
        (maybe (block [removeFromOutputPlugins plugins, maybe loadPlugin, maybe removeCheckpoints]))])

def hsStopOutputPlugins (plugins : Nat) : Footprint :=
  .locked .outputList (onePlugin plugins fun i => touch (.outputCp i))

end OutputPlugins

/-! ## hs_checkpoint_writer -/

namespace CheckpointWriter

def inputStats (plugins : Nat) : Footprint :=
  block [.locked .inputList
      (onePlugin plugins fun i => block [hsUpdateCheckpoint i, touch (.inputCp i)]),
    .locked .inputQueue hsLog, hsUpdateInputCheckpoint]

def analysisStats (threads : Nat) : Footprint :=
  each (List.range threads) fun tid =>
    block [touch (.analysisCp tid), hsUpdateInputCheckpoint, .locked .analysisQueue hsLog,
      hsUpdateInputCheckpoint, maybe (touch (.analysisList tid))]

def outputStats (plugins : Nat) : Footprint :=
  .locked .outputList (onePlugin plugins fun i =>
    .locked (.outputCp i) (block [maybe hsUpdateInputCheckpoint, maybe hsUpdateInputCheckpoint]))

end CheckpointWriter

/-! ## The process -/

/-- How many plugins and analysis threads there are. -/
structure Shape where
  inputs : Nat
  threads : Nat
  outputs : Nat

open InputPlugins AnalysisPlugins OutputPlugins CheckpointWriter

def hsWriteCheckpoints (n : Shape) : Footprint :=
  block [inputStats n.inputs, analysisStats n.threads, outputStats n.outputs, touch .inputQueue,
    touch .analysisQueue, hsLog, hsOutputCheckpoints, hsLog]

/-- The end of `main`: the CLI stops the inputs, the analysis and the outputs one after the other. -/
def shutdown (n : Shape) (cli : Bool) : Footprint :=
  if cli then
    block [hsStopInputPlugins, hsWaitInputPlugins, hsWriteCheckpoints n,
      hsStopAnalysisPlugins n.threads, hsWaitAnalysisPlugins, hsWriteCheckpoints n,
      hsStopOutputPlugins n.outputs, hsWaitOutputPlugins, hsWriteCheckpoints n]
  else
    block [hsStopInputPlugins, hsStopAnalysisPlugins n.threads, hsStopOutputPlugins n.outputs,
      hsWaitInputPlugins, hsWaitAnalysisPlugins, hsWaitOutputPlugins, hsWriteCheckpoints n]

def main (n : Shape) (cli : Bool) : Footprint :=
  block [hsLogs, hsCleanupCheckpoints, hsLogs,
    hsLoadInputStartup n.inputs, hsLoadAnalysisStartup n.threads,
    hsStartAnalysisThreads n.threads, hsLoadOutputStartup, hsLogs,
    .loop (block [hsWriteCheckpoints n,
      .loop (.branch (hsLoadAnalysisDynamic n.threads)
        (.branch (hsLoadInputDynamic n.inputs) (hsLoadOutputDynamic n.outputs))),
      hsLogs]),
    shutdown n cli, hsLogs]

/-- The threads of the process; the handler of signals only logs. -/
inductive Party (n : Shape)
  | main
  | sigHandler
  | input (plugin : Fin n.inputs)
  | analysis (tid : Fin n.threads)
  | output (plugin : Fin n.outputs)
  deriving DecidableEq, Fintype

def program (n : Shape) (cli : Bool) : Party n → Footprint
  | .main => main n cli
  | .sigHandler => hsLogs
  | .input i => InputPlugins.inputThread i
  | .analysis tid => AnalysisPlugins.inputThread tid
  | .output i => OutputPlugins.inputThread i

/-! ## Every function keeps to the order -/

section

variable {m : Nat}

@[simp] theorem hsLog_ordered : hsLog.Ordered rank m ↔ m ≤ 5 := by simp [hsLog, rank]

@[simp] theorem hsLogs_ordered : hsLogs.Ordered rank m ↔ m ≤ 5 := by
  simp [hsLogs, Code.Ordered]

@[simp] theorem sandbox_ordered {callback : Footprint} :
    (sandbox callback).Ordered rank m ↔ callback.Ordered rank m ∧ m ≤ 5 := by
  simp [sandbox, Code.Ordered]

theorem onePlugin_ordered {plugins : Nat} {c : Nat → Footprint} (h : ∀ i, (c i).Ordered rank m) :
    (onePlugin plugins c).Ordered rank m := by
  simp [onePlugin, h]

@[simp] theorem hsLookupCheckpoint_ordered {i : Nat} :
    (hsLookupCheckpoint i).Ordered rank m ↔ m ≤ 2 := by
  simp [hsLookupCheckpoint, hsLoadCheckpoint, Code.Ordered, rank]

@[simp] theorem hsUpdateCheckpoint_ordered {i : Nat} :
    (hsUpdateCheckpoint i).Ordered rank m ↔ m ≤ 2 := by
  simp [hsUpdateCheckpoint, Code.Ordered, rank]

@[simp] theorem hsLookupInputCheckpoint_ordered :
    hsLookupInputCheckpoint.Ordered rank m ↔ m ≤ 2 := by
  simp only [hsLookupInputCheckpoint, ordered_block, List.mem_cons, List.not_mem_nil, or_false,
    forall_eq_or_imp, ordered_touch, rank, forall_eq, ordered_maybe, Code.Ordered, hsLog_ordered]
  omega

@[simp] theorem hsUpdateInputCheckpoint_ordered :
    hsUpdateInputCheckpoint.Ordered rank m ↔ m ≤ 2 := by
  simp [hsUpdateInputCheckpoint, rank]

@[simp] theorem hsRemoveCheckpoint_ordered : hsRemoveCheckpoint.Ordered rank m ↔ m ≤ 2 := by
  simp [hsRemoveCheckpoint, Code.Ordered, rank]

end

theorem InputPlugins.inputThread_ordered (i : Nat) :
    (InputPlugins.inputThread i).Ordered rank 0 := by
  simp [InputPlugins.inputThread, InputPlugins.injectMessage, InputPlugins.updateCheckpoint,
    destroyInputPlugin, rank]

theorem AnalysisPlugins.analyzeMessage_ordered (tid : Nat) :
    (analyzeMessage tid).Ordered rank 0 := by
  simp [analyzeMessage, AnalysisPlugins.injectMessage, terminateSandbox,
    AnalysisPlugins.removePlugin, rank]

theorem AnalysisPlugins.inputThread_ordered (tid : Nat) :
    (AnalysisPlugins.inputThread tid).Ordered rank 0 := by
  simp [AnalysisPlugins.inputThread, analyzeMessage_ordered, shutdownTimerEvent,
    AnalysisPlugins.injectMessage, terminateSandbox, AnalysisPlugins.removePlugin, rank]

@[simp] theorem OutputPlugins.sandboxCall_ordered (i : Nat) :
    (sandboxCall i).Ordered rank 0 := by
  simp [sandboxCall, OutputPlugins.injectMessage, updateCheckpointCallback,
    OutputPlugins.updateCheckpoint, rank]

@[simp] theorem OutputPlugins.outputMessage_ordered (i : Nat) :
    (outputMessage i).Ordered rank 0 := by
  simp [outputMessage, OutputPlugins.updateCheckpoint, rank]

theorem OutputPlugins.inputThread_ordered (i : Nat) :
    (OutputPlugins.inputThread i).Ordered rank 0 := by
  simp [OutputPlugins.inputThread, readQueue, retry, removeCheckpointQ, destroyOutputPlugin, rank]

/-! ### The main thread -/

theorem loadInput_ordered (plugins : Nat) :
    (hsLoadInputStartup plugins).Ordered rank 0 ∧ (hsLoadInputDynamic plugins).Ordered rank 0 := by
  have hload : (InputPlugins.loadPlugin plugins).Ordered rank 0 := by
    have hadd : (onePlugin plugins addToInputPlugins).Ordered rank 0 :=
      onePlugin_ordered fun i => by simp [addToInputPlugins, rank]
    simp [InputPlugins.loadPlugin, hadd, rank]
  constructor
  · simp [hsLoadInputStartup, hload]
  · simp [hsLoadInputDynamic, InputPlugins.processLua, removeFromInputPlugins,
      InputPlugins.removePlugin, joinThread, destroyInputPlugin, hload, rank]

theorem loadAnalysis_ordered (threads : Nat) :
    (hsLoadAnalysisStartup threads).Ordered rank 0 ∧
      (hsLoadAnalysisDynamic threads).Ordered rank 0 := by
  have hload : (AnalysisPlugins.loadPlugin threads).Ordered rank 0 := by
    have hadd : (onePlugin threads addToAnalysisPlugins).Ordered rank 0 :=
      onePlugin_ordered fun tid => by simp [addToAnalysisPlugins, rank]
    simp [AnalysisPlugins.loadPlugin, hadd]
  have hremove : (onePlugin threads removeFromAnalysisPlugins).Ordered rank 0 :=
    onePlugin_ordered fun tid => by
      simp [removeFromAnalysisPlugins, AnalysisPlugins.removePlugin, rank]
  constructor
  · simp [hsLoadAnalysisStartup, hload]
  · simp [hsLoadAnalysisDynamic, AnalysisPlugins.processLua, leastUsedThreadId, hremove, hload,
      rank]

@[simp] theorem OutputPlugins.loadPlugin_ordered : OutputPlugins.loadPlugin.Ordered rank 0 := by
  simp [OutputPlugins.loadPlugin, addToOutputPlugins, removeCheckpointQ, rank]

theorem hsLoadOutputDynamic_ordered (plugins : Nat) :
    (hsLoadOutputDynamic plugins).Ordered rank 0 := by
  have hremove : (onePlugin plugins OutputPlugins.removePlugin).Ordered rank 1 :=
    onePlugin_ordered fun i => by simp [OutputPlugins.removePlugin, destroyOutputPlugin, rank]
  simp [hsLoadOutputDynamic, OutputPlugins.processLua, removeFromOutputPlugins, hremove,
    removeCheckpoints, rank]

theorem hsWriteCheckpoints_ordered (n : Shape) : (hsWriteCheckpoints n).Ordered rank 0 := by
  have hinputs : (inputStats n.inputs).Ordered rank 0 := by
    have hone : (onePlugin n.inputs fun i =>
        block [hsUpdateCheckpoint i, touch (.inputCp i)]).Ordered rank 1 :=
      onePlugin_ordered fun i => by simp [rank]
    simp [inputStats, hone, rank]
  have hanalysis : (analysisStats n.threads).Ordered rank 0 := by simp [analysisStats, rank]
  have houtputs : (outputStats n.outputs).Ordered rank 0 := by
    have hone : (onePlugin n.outputs fun i => .locked (.outputCp i)
        (block [maybe hsUpdateInputCheckpoint, maybe hsUpdateInputCheckpoint])).Ordered rank 1 :=
      onePlugin_ordered fun i => by simp [rank]
    simp [outputStats, hone, rank]
  simp [hsWriteCheckpoints, hinputs, hanalysis, houtputs, hsOutputCheckpoints, rank]

theorem shutdown_ordered (n : Shape) (cli : Bool) : (shutdown n cli).Ordered rank 0 := by
  have hwrite := hsWriteCheckpoints_ordered n
  have hstop : (hsStopOutputPlugins n.outputs).Ordered rank 0 := by
    have hone : (onePlugin n.outputs fun i => touch (.outputCp i)).Ordered rank 1 :=
      onePlugin_ordered fun i => by simp [rank]
    simp [hsStopOutputPlugins, hone, rank]
  cases cli <;>
    simp [shutdown, hwrite, hstop, hsStopInputPlugins, hsWaitInputPlugins, joinThread,
      destroyInputPlugin, hsStopAnalysisPlugins, hsWaitAnalysisPlugins, hsWaitOutputPlugins,
      destroyOutputPlugin, rank]

theorem main_ordered (n : Shape) (cli : Bool) : (main n cli).Ordered rank 0 := by
  simp [main, hsCleanupCheckpoints, loadInput_ordered, loadAnalysis_ordered, hsLoadOutputStartup,
    hsLoadOutputDynamic_ordered, hsStartAnalysisThreads, hsWriteCheckpoints_ordered, shutdown_ordered, rank]

theorem program_ordered (n : Shape) (cli : Bool) (p : Party n) :
    (program n cli p).Ordered rank 0 := by
  cases p with
  | main => exact main_ordered n cli
  | sigHandler => simp [program]
  | input i => exact InputPlugins.inputThread_ordered i
  | analysis tid => exact AnalysisPlugins.inputThread_ordered tid
  | output i => exact OutputPlugins.inputThread_ordered i

/-! ## No deadlock -/

/-- What holds of the mutexes in a state of the process: one holder at most; some thread can move, however
it goes on, until all are done; and all can be brought to their ends, where no mutex is held. -/
structure Live {n : Shape} (s : Party n → Thread Lock) : Prop where
  exclusive : ∀ p q l, l ∈ (s p).held → l ∈ (s q).held → p = q
  moves : (∃ p, (s p).todo ≠ []) → ∃ p, (s p).todo ≠ [] ∧ ∀ b, (step s (p, b)).isSome
  drains : ∃ es t, Runs.run step s es = some t ∧ ∀ p, (t p).todo = [] ∧ (t p).held = []

theorem never_deadlocked (n : Shape) (cli : Bool) (es : List (Party n × Bool)) :
    Runs.Always step Live (start (program n cli)) es := by
  have hinv : Runs.Always step (Inv rank) (start (program n cli)) es :=
    always_inv (program_ordered n cli) es
  exact hinv.mono fun s hi => ⟨hi.exclusive, hi.moves, hi.drains⟩

end Locking

end Hindsight
