import Hindsight.Lib.LuaApi
import Hindsight.Output

/-!
# Hindsight.Config

The loaders of `hs_config.c`: the main configuration and the configuration of a plugin, each read out
of the Lua state its file was run in. A character of a string stands for one byte.

* `hsLoadConfig`, `hsLoadSandboxConfig`: the options in the order they are read, their defaults,
  checks and messages.
* `load_limits`: the main loader compares the three default limits with `max_message_size`.
* `load_sandbox_limit`: the limit of a plugin is what its own file says.
* `output_limit_iff`: it is at most `max_message_size` just if the file does not raise it above.
-/

namespace Hindsight

namespace Config

open LuaApi

/-- What a loader takes from outside: `lua_tolstring` of a number, the conversion of NaN to an integer
type with a given maximum, `gethostname` and `getpid`. -/
structure Env where
  tostring : Number → String
  castNaN : Nat → Nat
  hostname : String
  pid : Nat

def uintMax : Nat := 2 ^ 32 - 1

def uint8Max : Nat := 2 ^ 8 - 1

def hsMaxPath : Nat := 260

def hsExtLen : Nat := 4

def hsMaxAnalysisThreads : Nat := 64

def hsLuaExt : String := ".lua"

def hsCfgExt : String := ".cfg"

/-- The bytes of a Lua string as a C string. -/
def cString (s : String) : String := String.ofList (s.toList.takeWhile (· != '\x00'))

/-- `hs_get_fqfn`; `none` when the name does not fit. -/
def hsGetFqfn (path name : String) (fqfnLen : Nat) : Option String :=
  let fqfn := path ++ "/" ++ name
  if fqfn.length > fqfnLen - 1 then none else some fqfn

/-- A name that is only an extension is invalid. -/
def hsHasExt (fn ext : String) : Bool :=
  decide (ext.length < fn.length) && fn.toList.drop (fn.length - ext.length) == ext.toList

/-! ## The options -/

/-- `get_unsigned_int` and `get_uint8`: a number up to `max`, truncated. -/
def readNumber (X : Env) (max : Nat) (kind name : String) (val : Nat) : Value → Except String Nat
  | .nil => .ok val
  | .number (.finite q) =>
    if q < 0 ∨ (max : ℚ) < q then .error (name ++ " must be " ++ kind) else .ok q.floor.toNat
  | .number (.infinite _) => .error (name ++ " must be " ++ kind)
  | .number .nan => .ok (X.castNaN max)
  | _ => .error (name ++ " must be set to a number")

def readUnsigned (X : Env) : String → Nat → Value → Except String Nat :=
  readNumber X uintMax "an unsigned int"

def getUnsignedInt (X : Env) (idx : Index) (name : String) (val : Nat) : M Nat :=
  M.getItem idx name (readUnsigned X name val)

def getUint8 (X : Env) (idx : Index) (name : String) (val : Nat) : M Nat :=
  M.getItem idx name (readNumber X uint8Max "a uint8_t" name val)

/-- A number is taken as its text. -/
def readString (X : Env) (name : String) (dflt : Option String) : Value → Except String String
  | .string s => .ok (cString s)
  | .number n => .ok (X.tostring n)
  | _ =>
    match dflt with
    | some d => .ok d
    | none => .error (name ++ " must be set to a string")

def getStringItem (X : Env) (idx : Index) (name : String) (dflt : Option String) : M String :=
  M.getItem idx name (readString X name dflt)

/-- The message names `preserve_data` whatever the option is. -/
def readBool (val : Bool) : Value → Except String Bool
  | .boolean b => .ok b
  | .nil => .ok val
  | _ => .error "preserve_data must be set to a bool"

def getBoolItem (idx : Index) (name : String) (val : Bool) : M Bool :=
  M.getItem idx name (readBool val)

def readOption (name : String) (val : Char) (options : List String) : Value → Except String Char
  | .string s =>
    if cString s ∈ options then .ok ((cString s).toList.headD '\x00')
    else .error (name ++ " invalid option " ++ cString s)
  | .nil => .ok val
  | _ => .error (name ++ " must be set to a string")

def getOptionChar (idx : Index) (name : String) (val : Char) (options : List String) : M Char :=
  M.getItem idx name (readOption name val options)

def queueOptions : List String := ["both", "input", "analysis"]

/-- Any entry that is left over; the message names the first one. -/
def checkForUnknownOptions (idx : Index) (parent : Option String) : M Unit := fun L =>
  match L.tableAt idx with
  | none => none
  | some r =>
    match L.heap r with
    | [] => some (.ok (), L)
    | (.string k, v) :: _ =>
      let name := match parent with
        | some p => p ++ "." ++ cString k
        | none => cString k
      let msg := "invalid option: '" ++ name ++ "'"
      some (.error msg, L.push [.string k, v, .string msg])
    | (k, v) :: _ => some (.error "non string key", L.push [k, v, .string "non string key"])

/-- `hs_sandbox_config`; a string that was not read is `none`. -/
structure HsSandboxConfig where
  dir : Option String
  filename : Option String
  cfgName : Option String
  cfgLua : Option String
  messageMatcher : Option String
  thread : Nat
  asyncBufferSize : Nat
  outputLimit : Nat
  memoryLimit : Nat
  instructionLimit : Nat
  tickerInterval : Nat
  preserveData : Bool
  restrictedHeaders : Bool
  shutdownTerminate : Bool
  rmCpTerminate : Bool
  readQueue : Char
  pmImLimit : Nat
  teImLimit : Nat

def initSandboxConfig : HsSandboxConfig where
  dir := none
  filename := none
  cfgName := none
  cfgLua := none
  messageMatcher := none
  thread := uintMax
  asyncBufferSize := 0
  outputLimit := 1024 * 64
  memoryLimit := 1024 * 1024 * 8
  instructionLimit := 1000000
  tickerInterval := 0
  preserveData := false
  restrictedHeaders := true
  shutdownTerminate := false
  rmCpTerminate := false
  readQueue := 'b'
  pmImLimit := 0
  teImLimit := 10

/-! ## The main configuration -/

/-- `hs_config`; a string that was not read is `none`. -/
structure HsConfig extends Hindsight.HsConfig where
  runPath : Option String
  runPathInput : Option String
  runPathAnalysis : Option String
  runPathOutput : Option String
  loadPath : Option String
  loadPathInput : Option String
  loadPathAnalysis : Option String
  loadPathOutput : Option String
  outputPath : Option String
  installPath : Option String
  ioLuaPath : Option String
  ioLuaCpath : Option String
  analysisLuaPath : Option String
  analysisLuaCpath : Option String
  hostname : Option String
  maxMessageSize : Nat
  pid : Nat
  analysisThreads : Nat
  analysisUtilizationLimit : Nat
  ipd : HsSandboxConfig
  apd : HsSandboxConfig
  opd : HsSandboxConfig

def initConfig (X : Env) : HsConfig where
  outputSize := 1024 * 1024 * 64
  backpressure := 0
  backpressureDf := 4
  runPath := none
  runPathInput := none
  runPathAnalysis := none
  runPathOutput := none
  loadPath := none
  loadPathInput := none
  loadPathAnalysis := none
  loadPathOutput := none
  outputPath := none
  installPath := none
  ioLuaPath := none
  ioLuaCpath := none
  analysisLuaPath := none
  analysisLuaCpath := none
  hostname := none
  maxMessageSize := 1024 * 64
  pid := X.pid
  analysisThreads := 1
  analysisUtilizationLimit := 95
  ipd := { initSandboxConfig with restrictedHeaders := false }
  apd := initSandboxConfig
  opd := { initSandboxConfig with restrictedHeaders := false }

/-- `lua_getglobal`; the table stays on the stack while its options are read. -/
def pushTable (key : String) : M Unit := fun L =>
  let v := L.global key
  match v with
  | .table _ => some (.ok (), L.push [v])
  | _ =>
    let msg := key ++ " must be a table"
    some (.error msg, L.push [v, .string msg])

/-- `remove_item` for a table that was pushed. -/
def removeTable (key : String) : M Unit := fun L =>
  some (.ok (), State.remove { L with stack := L.stack.dropLast } L.globals key)

/-- The inject limits of the analysis defaults. -/
def loadAnalysisDefaults (X : Env) (key : String) (cfg : HsSandboxConfig) : M (Nat × Nat) :=
  if key = "analysis_defaults" then do
    let pmImLimit ← getUnsignedInt X .bottom "process_message_inject_limit" cfg.pmImLimit
    let teImLimit ← getUnsignedInt X .bottom "timer_event_inject_limit" cfg.teImLimit
    pure (pmImLimit, teImLimit)
  else pure (cfg.pmImLimit, cfg.teImLimit)

def loadOutputDefaults (key : String) (cfg : HsSandboxConfig) : M (Bool × Char) :=
  if key = "output_defaults" then do
    let rmCpTerminate ← getBoolItem .bottom "remove_checkpoints_on_terminate" cfg.rmCpTerminate
    let readQueue ← getOptionChar .bottom "read_queue" cfg.readQueue queueOptions
    pure (rmCpTerminate, readQueue)
  else pure (cfg.rmCpTerminate, cfg.readQueue)

/-- The options are read from stack index 1: that is the table unless something is below it. -/
def loadSandboxDefaults (X : Env) (key : String) (cfg : HsSandboxConfig) : M HsSandboxConfig := do
  pushTable key
  let outputLimit ← getUnsignedInt X .bottom "output_limit" cfg.outputLimit
  let memoryLimit ← getUnsignedInt X .bottom "memory_limit" cfg.memoryLimit
  let instructionLimit ← getUnsignedInt X .bottom "instruction_limit" cfg.instructionLimit
  let tickerInterval ← getUnsignedInt X .bottom "ticker_interval" cfg.tickerInterval
  let preserveData ← getBoolItem .bottom "preserve_data" cfg.preserveData
  let restrictedHeaders ← getBoolItem .bottom "restricted_headers" cfg.restrictedHeaders
  let shutdownTerminate ← getBoolItem .bottom "shutdown_on_terminate" cfg.shutdownTerminate
  let (pmImLimit, teImLimit) ← loadAnalysisDefaults X key cfg
  let (rmCpTerminate, readQueue) ← loadOutputDefaults key cfg
  checkForUnknownOptions .bottom (some key)
  removeTable key
  pure { cfg with
    outputLimit, memoryLimit, instructionLimit, tickerInterval, preserveData, restrictedHeaders,
    shutdownTerminate, pmImLimit, teImLimit, rmCpTerminate, readQueue }

/-- The options of `hs_load_config` up to `analysis_utilization_limit`. -/
def loadSizes (X : Env) (cfg : HsConfig) : M HsConfig := do
  let maxMessageSize ←
    (getUnsignedInt X .globals "max_message_size" cfg.maxMessageSize).attempt cfg.maxMessageSize
  M.checkThat (decide (1024 ≤ maxMessageSize)) "max_message_size must be > 1023"
  let outputPath ← getStringItem X .globals "output_path" none
  let outputSize ← getUnsignedInt X .globals "output_size" cfg.outputSize
  let backpressure ← getUnsignedInt X .globals "backpressure" cfg.backpressure
  let backpressureDf ← getUnsignedInt X .globals "backpressure_disk_free" cfg.backpressureDf
  let loadPath ← getStringItem X .globals "sandbox_load_path" (some "")
  let limit := cfg.analysisUtilizationLimit
  let analysisUtilizationLimit ←
    (getUint8 X .globals "analysis_utilization_limit" limit).attempt limit
  M.checkThat (decide (analysisUtilizationLimit ≤ 100)) "analysis_utilization_limit must be 0-100"
  pure { cfg with
    maxMessageSize, outputSize, backpressure, backpressureDf, analysisUtilizationLimit
    outputPath := some outputPath
    loadPath := some loadPath
    loadPathInput := some (loadPath ++ "/input")
    loadPathAnalysis := some (loadPath ++ "/analysis")
    loadPathOutput := some (loadPath ++ "/output") }

/-- The options from `sandbox_run_path` to `analysis_threads`. -/
def loadPaths (X : Env) (cfg : HsConfig) : M HsConfig := do
  let runPath ← getStringItem X .globals "sandbox_run_path" none
  let installPath ←
    getStringItem X .globals "sandbox_install_path" (some "/usr/share/luasandbox/sandboxes/heka")
  let ioLuaPath ← getStringItem X .globals "io_lua_path" none
  let ioLuaCpath ← getStringItem X .globals "io_lua_cpath" none
  let analysisLuaPath ← getStringItem X .globals "analysis_lua_path" none
  let analysisLuaCpath ← getStringItem X .globals "analysis_lua_cpath" none
  let hostname ← getStringItem X .globals "hostname" (some X.hostname)
  let analysisThreads ←
    (getUint8 X .globals "analysis_threads" cfg.analysisThreads).attempt cfg.analysisThreads
  M.checkThat (decide (1 ≤ analysisThreads ∧ analysisThreads ≤ hsMaxAnalysisThreads))
    "analysis_threads must be 1-64"
  pure { cfg with
    analysisThreads
    runPath := some runPath
    runPathInput := some (runPath ++ "/input")
    runPathAnalysis := some (runPath ++ "/analysis")
    runPathOutput := some (runPath ++ "/output")
    installPath := some installPath
    ioLuaPath := some ioLuaPath
    ioLuaCpath := some ioLuaCpath
    analysisLuaPath := some analysisLuaPath
    analysisLuaCpath := some analysisLuaCpath
    hostname := some (String.ofList (hostname.toList.take 64)) }

/-- The three default tables and the check of their limits. -/
def loadDefaults (X : Env) (cfg : HsConfig) : M HsConfig := do
  let ipd ← loadSandboxDefaults X "input_defaults" cfg.ipd
  let apd ← loadSandboxDefaults X "analysis_defaults" cfg.apd
  let opd ← loadSandboxDefaults X "output_defaults" cfg.opd
  M.checkThat
    (decide (¬(cfg.maxMessageSize < ipd.outputLimit ∨ cfg.maxMessageSize < apd.outputLimit ∨
      cfg.maxMessageSize < opd.outputLimit)))
    "max_message_size must be greater than or equal to the sandbox output_limit"
  checkForUnknownOptions .globals none
  pure { cfg with ipd, apd, opd }

/-- What a loader returns for the chunk of its file: an error message when the file did not run or an
option is refused. -/
def finish {α : Type} (x : M α) : Except String State → Option (Except String α)
  | .error msg => some (.error msg)
  | .ok L => (x L).map Prod.fst

def hsLoadConfig (X : Env) (chunk : Except String State) : Option (Except String HsConfig) :=
  finish (do loadDefaults X (← loadPaths X (← loadSizes X (initConfig X)))) chunk

/-! ## The configuration of a plugin -/

inductive SandboxType where
  | input
  | analysis
  | output
  deriving DecidableEq, Repr

def SandboxType.dir : SandboxType → String
  | .input => "input"
  | .analysis => "analysis"
  | .output => "output"

/-- The defaults the callers pass for a plugin of the type. -/
def HsConfig.defaults (cfg : HsConfig) : SandboxType → HsSandboxConfig
  | .input => cfg.ipd
  | .analysis => cfg.apd
  | .output => cfg.opd

def createName (type fn : String) : String :=
  type ++ "." ++ String.ofList (fn.toList.take (fn.length - hsExtLen))

/-- The defaults are copied, except for the thread and the size of the async buffer. -/
def withDefaults (cfg : HsSandboxConfig) : Option HsSandboxConfig → HsSandboxConfig
  | none => cfg
  | some dflt =>
    { cfg with
      outputLimit := dflt.outputLimit
      memoryLimit := dflt.memoryLimit
      instructionLimit := dflt.instructionLimit
      tickerInterval := dflt.tickerInterval
      preserveData := dflt.preserveData
      restrictedHeaders := dflt.restrictedHeaders
      shutdownTerminate := dflt.shutdownTerminate
      rmCpTerminate := dflt.rmCpTerminate
      pmImLimit := dflt.pmImLimit
      teImLimit := dflt.teImLimit
      readQueue := dflt.readQueue }

def loadMatcher (X : Env) (type : SandboxType) (cfg : HsSandboxConfig) : M (Option String) :=
  if type = .analysis ∨ type = .output then do
    let matcher ← getStringItem X .globals "message_matcher" none
    pure (some matcher)
  else pure cfg.messageMatcher

/-- The error codes of `thread` and `process_message_inject_limit` are overwritten by the next call. -/
def loadAnalysisOptions (X : Env) (type : SandboxType) (cfg : HsSandboxConfig) :
    M (Nat × Nat × Nat) :=
  if type = .analysis then do
    let thread ← (getUnsignedInt X .globals "thread" cfg.thread).attempt cfg.thread
    let pmImLimit ←
      (getUnsignedInt X .globals "process_message_inject_limit" cfg.pmImLimit).attempt cfg.pmImLimit
    let teImLimit ← getUnsignedInt X .globals "timer_event_inject_limit" cfg.teImLimit
    pure (thread, pmImLimit, teImLimit)
  else pure (cfg.thread, cfg.pmImLimit, cfg.teImLimit)

/-- The error code of `remove_checkpoints_on_terminate` is overwritten by the next call. -/
def loadOutputOptions (X : Env) (type : SandboxType) (cfg : HsSandboxConfig) :
    M (Nat × Bool × Char) :=
  if type = .output then do
    let asyncBufferSize ← getUnsignedInt X .globals "async_buffer_size" cfg.asyncBufferSize
    let rmCpTerminate ←
      (getBoolItem .globals "remove_checkpoints_on_terminate" cfg.rmCpTerminate).attempt
        cfg.rmCpTerminate
    let readQueue ← getOptionChar .globals "read_queue" cfg.readQueue queueOptions
    pure (asyncBufferSize, rmCpTerminate, readQueue)
  else pure (cfg.asyncBufferSize, cfg.rmCpTerminate, cfg.readQueue)

/-- The options of `hs_load_sandbox_config`. -/
def loadSandboxOptions (X : Env) (type : SandboxType) (cfg : HsSandboxConfig) :
    M HsSandboxConfig := do
  let outputLimit ← getUnsignedInt X .globals "output_limit" cfg.outputLimit
  let memoryLimit ← getUnsignedInt X .globals "memory_limit" cfg.memoryLimit
  let instructionLimit ← getUnsignedInt X .globals "instruction_limit" cfg.instructionLimit
  let tickerInterval ← getUnsignedInt X .globals "ticker_interval" cfg.tickerInterval
  let filename ← getStringItem X .globals "filename" none
  M.checkThat (filename.toList.all fun c => c != '/' && c != '\\')
    "filename must not contain a path component"
  M.checkThat (hsHasExt filename hsLuaExt) ".lua must have a filename extension"
  let preserveData ← getBoolItem .globals "preserve_data" cfg.preserveData
  let restrictedHeaders ← getBoolItem .globals "restricted_headers" cfg.restrictedHeaders
  let shutdownTerminate ← getBoolItem .globals "shutdown_on_terminate" cfg.shutdownTerminate
  let messageMatcher ← loadMatcher X type cfg
  let (thread, pmImLimit, teImLimit) ← loadAnalysisOptions X type cfg
  let (asyncBufferSize, rmCpTerminate, readQueue) ← loadOutputOptions X type cfg
  pure { cfg with
    outputLimit, memoryLimit, instructionLimit, tickerInterval, preserveData, restrictedHeaders
    shutdownTerminate, messageMatcher, thread, pmImLimit, teImLimit, asyncBufferSize, rmCpTerminate
    readQueue
    filename := some filename }

/-- The configuration before the file is run. -/
def beforeOptions (dir fn text : String) (dflt : Option HsSandboxConfig) (type : SandboxType) :
    HsSandboxConfig :=
  { withDefaults { initSandboxConfig with cfgLua := some text } dflt with
    cfgName := some (createName type.dir fn)
    dir := some dir }

theorem outputLimit_beforeOptions (dir fn text : String) (dflt : HsSandboxConfig)
    (type : SandboxType) :
    (beforeOptions dir fn text (some dflt) type).outputLimit = dflt.outputLimit := rfl

/-- The file of a plugin: its text, and the state of the interpreter after the text was run. -/
structure SandboxFile where
  text : Option String
  chunk : Except String State

/-- The load fails without a message when the file cannot be read as a configuration. -/
def hsLoadSandboxConfig (X : Env) (dir fn : String) (file : SandboxFile)
    (dflt : Option HsSandboxConfig) (type : SandboxType) :
    Option (Except (Option String) HsSandboxConfig) :=
  match hsHasExt fn hsCfgExt, hsGetFqfn dir fn hsMaxPath, file.text with
  | true, some _, some text =>
    (finish (loadSandboxOptions X type (beforeOptions dir fn text dflt type)) file.chunk).map
      (Except.mapError some)
  | _, _, _ => some (.error none)

/-! ## What an accepted configuration holds -/

section

variable {X : Env} {α : Type}

theorem finish_ok {x : M α} {chunk : Except String State} {a : α}
    (h : finish x chunk = some (.ok a)) : ∃ L L', chunk = .ok L ∧ x L = some (.ok a, L') := by
  cases chunk with
  | error msg => cases h
  | ok L =>
    obtain ⟨⟨r, L'⟩, hx, rfl⟩ := Option.map_eq_some_iff.mp h
    exact ⟨L, L', rfl, hx⟩

theorem ok_of_toOption {ε : Type} {r : Option (Except ε α)} {a : α}
    (h : r.bind Except.toOption = some a) : r = some (.ok a) := by
  obtain ⟨e, rfl, he⟩ := Option.bind_eq_some_iff.mp h
  cases e with
  | error msg => cases he
  | ok b =>
    cases he
    rfl

/-- An unsigned option whose value is absent or bad keeps `val`. -/
def unsignedValue (X : Env) (val : Nat) : Value → Nat
  | .number (.finite q) => if q < 0 ∨ (uintMax : ℚ) < q then val else q.floor.toNat
  | .number .nan => X.castNaN uintMax
  | _ => val

/-- A number that was read was absent, in range or NaN. -/
theorem readNumber_ok {max val n : Nat} {kind name : String} {v : Value}
    (h : readNumber X max kind name val v = .ok n) :
    v = .nil ∧ n = val ∨
      (∃ q : ℚ, v = .number (.finite q) ∧ 0 ≤ q ∧ q ≤ max ∧ n = q.floor.toNat) ∨
      v = .number .nan ∧ n = X.castNaN max := by
  cases v with
  | number x =>
    cases x with
    | finite q =>
      simp only [readNumber] at h
      split at h
      · cases h
      · rename_i hq
        rw [not_or, not_lt, not_lt] at hq
        cases h
        exact .inr (.inl ⟨q, rfl, hq.1, hq.2, rfl⟩)
    | infinite negative => cases h
    | nan =>
      cases h
      exact .inr (.inr ⟨rfl, rfl⟩)
  | nil =>
    cases h
    exact .inl ⟨rfl, rfl⟩
  | boolean b => cases h
  | string s => cases h
  | table r => cases h
  | other => cases h

theorem unsignedValue_of_ok {name : String} {val n : Nat} {v : Value}
    (h : readUnsigned X name val v = .ok n) : unsignedValue X val v = n := by
  rcases readNumber_ok h with ⟨rfl, rfl⟩ | ⟨q, rfl, h0, hmax, rfl⟩ | ⟨rfl, rfl⟩
  · rfl
  · rw [unsignedValue, if_neg (not_or.mpr ⟨not_lt.mpr h0, not_lt.mpr hmax⟩)]
  · rfl

theorem unsignedValue_of_error {name msg : String} {val : Nat} {v : Value}
    (h : readUnsigned X name val v = .error msg) : unsignedValue X val v = val := by
  unfold readUnsigned at h
  cases v with
  | number x =>
    cases x with
    | finite q =>
      simp only [readNumber, unsignedValue] at h ⊢
      split at h
      · rename_i hq
        rw [if_pos hq]
      · cases h
    | infinite negative => rfl
    | nan => cases h
  | nil => rfl
  | boolean b => rfl
  | string s => rfl
  | table r => rfl
  | other => rfl

theorem getUnsignedInt_ok {name : String} {val n : Nat} {L L' : State}
    (h : getUnsignedInt X .globals name val L = some (.ok n, L')) :
    readUnsigned X name val (L.global name) = .ok n := by
  obtain ⟨r, hr, hread, -⟩ := M.getItem_ok h
  cases hr
  exact hread

theorem attempt_getUnsignedInt {name : String} {val n : Nat} {L L' : State}
    (h : (getUnsignedInt X .globals name val).attempt val L = some (.ok n, L')) :
    n = unsignedValue X val (L.global name) := by
  simp only [M.attempt, getUnsignedInt, M.getItem, State.tableAt] at h
  cases hread : readUnsigned X name val ((L.heap L.globals).get name) with
  | error msg =>
    rw [hread] at h
    cases h
    exact (unsignedValue_of_error hread).symm
  | ok m =>
    rw [hread] at h
    cases h
    exact (unsignedValue_of_ok hread).symm

theorem loadSizes_ok {cfg cfg' : HsConfig} {L L' : State}
    (h : loadSizes X cfg L = some (.ok cfg', L')) :
    cfg'.maxMessageSize = unsignedValue X cfg.maxMessageSize (L.global "max_message_size") := by
  obtain ⟨size, L1, hsize, h⟩ := M.bind_ok h
  rw [← attempt_getUnsignedInt hsize]
  -- the other sizes leave it alone
  refine M.Ensures.bind (P := fun c => c.maxMessageSize = size) (fun _ => ?_) h
  repeat refine M.Ensures.bind fun _ => ?_
  exact M.Ensures.pure rfl

theorem loadPaths_ok {cfg cfg' : HsConfig} {L L' : State}
    (h : loadPaths X cfg L = some (.ok cfg', L')) : cfg'.maxMessageSize = cfg.maxMessageSize := by
  refine M.Ensures.bind (P := fun c => c.maxMessageSize = cfg.maxMessageSize) (fun _ => ?_) h
  repeat refine M.Ensures.bind fun _ => ?_
  exact M.Ensures.pure rfl

/-- No default limit is above `max_message_size`. -/
theorem loadDefaults_ok {cfg cfg' : HsConfig} {L L' : State}
    (h : loadDefaults X cfg L = some (.ok cfg', L')) :
    cfg'.maxMessageSize = cfg.maxMessageSize ∧
      ∀ type, (cfg'.defaults type).outputLimit ≤ cfg.maxMessageSize := by
  obtain ⟨ipd, _, -, h⟩ := M.bind_ok h
  obtain ⟨apd, _, -, h⟩ := M.bind_ok h
  obtain ⟨opd, _, -, h⟩ := M.bind_ok h
  obtain ⟨_, _, hcheck, h⟩ := M.bind_ok h
  obtain ⟨_, _, -, h⟩ := M.bind_ok h
  have hlimits := of_decide_eq_true (M.checkThat_ok hcheck).1
  rw [not_or, not_or, Nat.not_lt, Nat.not_lt, Nat.not_lt] at hlimits
  rw [← (M.pure_ok h).1]
  refine ⟨rfl, fun type => ?_⟩
  cases type with
  | input => exact hlimits.1
  | analysis => exact hlimits.2.1
  | output => exact hlimits.2.2

theorem load_limits {L : State} {cfg : HsConfig} (h : hsLoadConfig X (.ok L) = some (.ok cfg)) :
    cfg.maxMessageSize = unsignedValue X (1024 * 64) (L.global "max_message_size") ∧
      ∀ type, (cfg.defaults type).outputLimit ≤ cfg.maxMessageSize := by
  obtain ⟨_, L', hL, h⟩ := finish_ok h
  cases hL
  obtain ⟨cfg1, L1, hsizes, h⟩ := M.bind_ok h
  obtain ⟨cfg2, L2, hpaths, h⟩ := M.bind_ok h
  obtain ⟨hsize, hlimits⟩ := loadDefaults_ok h
  rw [← hsize] at hlimits
  exact ⟨hsize.trans ((loadPaths_ok hpaths).trans (loadSizes_ok hsizes)), hlimits⟩

theorem loadSandboxOptions_ok {type : SandboxType} {cfg cfg' : HsSandboxConfig} {L L' : State}
    (h : loadSandboxOptions X type cfg L = some (.ok cfg', L')) :
    readUnsigned X "output_limit" cfg.outputLimit (L.global "output_limit") =
      .ok cfg'.outputLimit := by
  obtain ⟨limit, L1, hlimit, h⟩ := M.bind_ok h
  -- no other option touches the limit
  have hkeep : cfg'.outputLimit = limit := by
    refine M.Ensures.bind (P := fun c => c.outputLimit = limit) (fun _ => ?_) h
    repeat refine M.Ensures.bind fun _ => ?_
    exact M.Ensures.pure rfl
  rw [hkeep]
  exact getUnsignedInt_ok hlimit

/-- What was done for a configuration that is accepted. -/
theorem hsLoadSandboxConfig_ok {dir fn : String} {file : SandboxFile} {dflt : Option HsSandboxConfig}
    {cfg : HsSandboxConfig} {type : SandboxType}
    (h : hsLoadSandboxConfig X dir fn file dflt type = some (.ok cfg)) :
    (hsGetFqfn dir fn hsMaxPath).isSome = true ∧ ∃ text L L', file.chunk = .ok L ∧
      loadSandboxOptions X type (beforeOptions dir fn text dflt type) L = some (.ok cfg, L') := by
  unfold hsLoadSandboxConfig at h
  split at h
  · rename_i hfqfn _
    obtain ⟨r, hfinish, hr⟩ := Option.map_eq_some_iff.mp h
    cases r with
    | error msg => cases hr
    | ok cfg' =>
      cases hr
      obtain ⟨L, L', hL, hload⟩ := finish_ok hfinish
      exact ⟨by rw [hfqfn]; rfl, _, L, L', hL, hload⟩
  · cases h

theorem load_sandbox_limit {dir fn : String} {text : Option String} {L : State}
    {dflt cfg : HsSandboxConfig} {type : SandboxType}
    (h : hsLoadSandboxConfig X dir fn ⟨text, .ok L⟩ (some dflt) type = some (.ok cfg)) :
    readUnsigned X "output_limit" dflt.outputLimit (L.global "output_limit") =
      .ok cfg.outputLimit := by
  obtain ⟨-, _, _, L', hL, hload⟩ := hsLoadSandboxConfig_ok h
  cases hL
  have hlimit := loadSandboxOptions_ok hload
  rwa [outputLimit_beforeOptions] at hlimit

end

/-! ## The limit of a plugin -/

/-- The file of the plugin sets no `output_limit` above the `max_message_size` of the main file. -/
def LimitFits (X : Env) (main plugin : State) : Prop :=
  ∀ x, plugin.global "output_limit" = .number x →
    unsignedValue X 0 (.number x) ≤ unsignedValue X (1024 * 64) (main.global "max_message_size")

theorem output_limit_iff (X : Env) (main plugin : State) (dir fn : String) (text : Option String)
    (type : SandboxType) (cfg : HsConfig) (sbc : HsSandboxConfig)
    (hmain : hsLoadConfig X (.ok main) = some (.ok cfg))
    (hplugin : hsLoadSandboxConfig X dir fn ⟨text, .ok plugin⟩ (some (cfg.defaults type)) type =
      some (.ok sbc)) :
    sbc.outputLimit ≤ cfg.maxMessageSize ↔ LimitFits X main plugin := by
  obtain ⟨hsize, hdefaults⟩ := load_limits hmain
  have hread := load_sandbox_limit hplugin
  unfold LimitFits
  rw [← hsize]
  cases hv : plugin.global "output_limit" with
  | number x =>
    rw [hv] at hread
    have hlimit : unsignedValue X 0 (.number x) = sbc.outputLimit := by
      have hval := unsignedValue_of_ok hread
      cases x with
      | finite q =>
        simp only [readUnsigned, readNumber, unsignedValue] at hread hval ⊢
        split at hread
        · cases hread
        · rename_i hq
          rw [if_neg hq] at hval ⊢
          exact hval
      | infinite negative => cases hread
      | nan => exact hval
    refine ⟨fun h y hy => ?_, fun h => ?_⟩
    · cases hy
      rw [hlimit]
      exact h
    · rw [← hlimit]
      exact h x rfl
  | nil =>
    rw [hv] at hread
    rw [← Except.ok.inj hread]
    exact ⟨fun _ y hy => (by cases hy), fun _ => hdefaults type⟩
  | boolean b =>
    rw [hv] at hread
    cases hread
  | string s =>
    rw [hv] at hread
    cases hread
  | table r =>
    rw [hv] at hread
    cases hread
  | other =>
    rw [hv] at hread
    cases hread

/-- A main file with the required options only. -/
def plainMain : State where
  heap
    | 0 =>
      [(.string "output_path", .string "output"), (.string "sandbox_run_path", .string "run"),
        (.string "io_lua_path", .string "io/?.lua"), (.string "io_lua_cpath", .string "io/?.so"),
        (.string "analysis_lua_path", .string "analysis/?.lua"),
        (.string "analysis_lua_cpath", .string "analysis/?.so"),
        (.string "input_defaults", .table 1), (.string "analysis_defaults", .table 2),
        (.string "output_defaults", .table 3)]
    | _ => []
  globals := 0
  stack := []

/-- The file of an input plugin with an `output_limit`. -/
def inputPlugin (limit : Nat) : State where
  heap _ :=
    [(.string "filename", .string "input.lua"), (.string "output_limit", .number (.finite limit))]
  globals := 0
  stack := []

theorem global_inputPlugin (limit : Nat) :
    (inputPlugin limit).global "output_limit" = .number (.finite limit) := by
  have hne : (Value.string "filename" == Value.string "output_limit") = false := by decide +kernel
  simp only [State.global, inputPlugin, Table.get, List.find?, hne, beq_self_eq_true]

def plainEnv : Env := ⟨fun _ => "0", fun _ => 0, "localhost", 1⟩

/-- Both files are accepted. -/
theorem accepted (limit : Nat)
    (h : (((hsLoadConfig plainEnv (.ok plainMain)).bind Except.toOption).bind fun cfg =>
      (hsLoadSandboxConfig plainEnv "run/input" "a.cfg" ⟨some "", .ok (inputPlugin limit)⟩
        (some (cfg.defaults .input)) .input).bind Except.toOption).isSome = true) :
    ∃ cfg sbc, hsLoadConfig plainEnv (.ok plainMain) = some (.ok cfg) ∧
      hsLoadSandboxConfig plainEnv "run/input" "a.cfg" ⟨some "", .ok (inputPlugin limit)⟩
        (some (cfg.defaults .input)) .input = some (.ok sbc) := by
  obtain ⟨sbc, hsbc⟩ := Option.isSome_iff_exists.mp h
  obtain ⟨cfg, hcfg, hsbc⟩ := Option.bind_eq_some_iff.mp hsbc
  exact ⟨cfg, sbc, ok_of_toOption hcfg, ok_of_toOption hsbc⟩

/-- A plugin that asks for less than the default. -/
theorem output_limit_iff_small :
    ∃ cfg sbc, hsLoadConfig plainEnv (.ok plainMain) = some (.ok cfg) ∧
      hsLoadSandboxConfig plainEnv "run/input" "a.cfg" ⟨some "", .ok (inputPlugin 1024)⟩
        (some (cfg.defaults .input)) .input = some (.ok sbc) ∧
      sbc.outputLimit ≤ cfg.maxMessageSize := by
  have hboth := accepted 1024 (by decide +kernel)
  obtain ⟨cfg, sbc, hmain, hplugin⟩ := hboth
  refine ⟨cfg, sbc, hmain, hplugin,
    (output_limit_iff _ _ _ _ _ _ _ cfg sbc hmain hplugin).mpr fun x hx => ?_⟩
  rw [global_inputPlugin] at hx
  cases hx
  decide +kernel

/-- The plugin's own file is not compared with `max_message_size`. -/
theorem output_limit_exceeds :
    ¬ ∀ (X : Env) (main plugin : State) (dir fn : String) (text : Option String)
      (type : SandboxType) (cfg : HsConfig) (sbc : HsSandboxConfig),
      hsLoadConfig X (.ok main) = some (.ok cfg) →
      hsLoadSandboxConfig X dir fn ⟨text, .ok plugin⟩ (some (cfg.defaults type)) type =
        some (.ok sbc) → sbc.outputLimit ≤ cfg.maxMessageSize := by
  intro h
  obtain ⟨cfg, sbc, hmain, hplugin⟩ := accepted 65537 (by decide +kernel)
  have hle := h _ _ _ _ _ _ _ _ _ hmain hplugin
  have hsize : cfg.maxMessageSize = 65536 :=
    (load_limits hmain).1.trans (by decide +kernel)
  have hlimit := unsignedValue_of_ok (load_sandbox_limit hplugin)
  have hvalue : ∀ val, unsignedValue plainEnv val (.number (.finite (65537 : Nat))) = 65537 := by
    intro val
    have hrange : ¬(((65537 : Nat) : ℚ) < 0 ∨ (uintMax : ℚ) < (65537 : Nat)) := by decide +kernel
    simp only [unsignedValue, if_neg hrange]
    decide +kernel
  rw [global_inputPlugin, hvalue] at hlimit
  omega

end Config

end Hindsight
