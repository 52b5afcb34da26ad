import Hindsight.Config

/-!
# Hindsight.SandboxOptions

What `hs_load_sandbox_config` makes of the options of a file it accepts. The options are read one after
another out of the globals, each is removed when it was read, and the results of three of the calls are
overwritten before they are tested.

* `Loaded`: the accepted configuration as the calls read it; `loaded_of_ok`.
* `Reads`: every option of the type is valid, and its field is the file's value or the default.
* `reads_iff`: an accepted file is read so exactly when the three options are valid and no number is NaN.
-/

namespace Hindsight

namespace SandboxOptions

open Config LuaApi

/-! ## Options -/

/-- An unsigned option and its field: absent, or a number in range, taken as its integer part. -/
def UnsignedOk (dflt field : Nat) (v : Value) : Prop :=
  (v = .nil ∧ field = dflt) ∨
    ∃ q : ℚ, v = .number (.finite q) ∧ 0 ≤ q ∧ q ≤ uintMax ∧ field = q.floor.toNat

def BoolOk (dflt field : Bool) (v : Value) : Prop := (v = .nil ∧ field = dflt) ∨ v = .boolean field

/-- A string that has to be there; a number is taken as its text. -/
def StringOk (X : Env) (field : Option String) (v : Value) : Prop :=
  (∃ s, v = .string s ∧ field = some (cString s)) ∨ ∃ n, v = .number n ∧ field = some (X.tostring n)

/-- One of the queues, its first character. -/
def QueueOk (dflt field : Char) (v : Value) : Prop :=
  (v = .nil ∧ field = dflt) ∨
    ∃ s, v = .string s ∧ cString s ∈ queueOptions ∧ field = (cString s).toList.headD '\x00'

/-- A file name without a path, with the extension. -/
def IsLuaFile (s : String) : Prop :=
  (s.toList.all fun c => c != '/' && c != '\\') = true ∧ hsHasExt s hsLuaExt = true

/-- The defaults a file inherits. -/
def inherited (dflt : Option HsSandboxConfig) : HsSandboxConfig := dflt.getD initSandboxConfig

/-- Every option of the type in the file is valid, and each field is the value of the file if there is one,
otherwise the default. There is no default for `thread` and `async_buffer_size` but the built-in one. -/
structure Reads (X : Env) (type : SandboxType) (dflt : Option HsSandboxConfig) (L : State)
    (cfg : HsSandboxConfig) : Prop where
  outputLimit : UnsignedOk (inherited dflt).outputLimit cfg.outputLimit (L.global "output_limit")
  memoryLimit : UnsignedOk (inherited dflt).memoryLimit cfg.memoryLimit (L.global "memory_limit")
  instructionLimit :
    UnsignedOk (inherited dflt).instructionLimit cfg.instructionLimit (L.global "instruction_limit")
  tickerInterval :
    UnsignedOk (inherited dflt).tickerInterval cfg.tickerInterval (L.global "ticker_interval")
  preserveData : BoolOk (inherited dflt).preserveData cfg.preserveData (L.global "preserve_data")
  restrictedHeaders :
    BoolOk (inherited dflt).restrictedHeaders cfg.restrictedHeaders (L.global "restricted_headers")
  shutdownTerminate :
    BoolOk (inherited dflt).shutdownTerminate cfg.shutdownTerminate (L.global "shutdown_on_terminate")
  filename : StringOk X cfg.filename (L.global "filename") ∧ ∀ s ∈ cfg.filename, IsLuaFile s
  messageMatcher : type ≠ .input → StringOk X cfg.messageMatcher (L.global "message_matcher")
  thread : type = .analysis → UnsignedOk uintMax cfg.thread (L.global "thread")
  pmImLimit : type = .analysis →
    UnsignedOk (inherited dflt).pmImLimit cfg.pmImLimit (L.global "process_message_inject_limit")
  teImLimit : type = .analysis →
    UnsignedOk (inherited dflt).teImLimit cfg.teImLimit (L.global "timer_event_inject_limit")
  asyncBufferSize : type = .output → UnsignedOk 0 cfg.asyncBufferSize (L.global "async_buffer_size")
  rmCpTerminate : type = .output →
    BoolOk (inherited dflt).rmCpTerminate cfg.rmCpTerminate (L.global "remove_checkpoints_on_terminate")
  readQueue : type = .output → QueueOk (inherited dflt).readQueue cfg.readQueue (L.global "read_queue")

/-- An unsigned option that is absent or in range. -/
def UnsignedValid (v : Value) : Prop :=
  v = .nil ∨ ∃ q : ℚ, v = .number (.finite q) ∧ 0 ≤ q ∧ q ≤ uintMax

def BoolValid (v : Value) : Prop := v = .nil ∨ ∃ b, v = .boolean b

def numericOptions : SandboxType → List String
  | .input => ["output_limit", "memory_limit", "instruction_limit", "ticker_interval"]
  | .analysis =>
    ["output_limit", "memory_limit", "instruction_limit", "ticker_interval", "timer_event_inject_limit"]
  | .output => ["output_limit", "memory_limit", "instruction_limit", "ticker_interval", "async_buffer_size"]

/-- The options the results of which are overwritten are valid, and no other number is NaN. -/
structure Admits (type : SandboxType) (L : State) : Prop where
  thread : type = .analysis → UnsignedValid (L.global "thread")
  pmImLimit : type = .analysis → UnsignedValid (L.global "process_message_inject_limit")
  rmCpTerminate : type = .output → BoolValid (L.global "remove_checkpoints_on_terminate")
  numbers : ∀ name ∈ numericOptions type, L.global name ≠ .number .nan

/-! ## One call -/

section

variable {X : Env} {α : Type}

/-- A call whose result is overwritten. -/
def Attempted (read : Value → Except String α) (val : α) (v : Value) (a : α) : Prop :=
  read v = .ok a ∨ (∃ msg, read v = .error msg) ∧ a = val

theorem readUnsigned_ok {name : String} {val n : Nat} {v : Value} (h : readUnsigned X name val v = .ok n) :
    UnsignedOk val n v ∨ v = .number .nan := by
  rcases readNumber_ok h with hnil | hnumber | ⟨hnan, -⟩
  · exact .inl (.inl hnil)
  · exact .inl (.inr hnumber)
  · exact .inr hnan

theorem UnsignedOk.valid {dflt n : Nat} {v : Value} (h : UnsignedOk dflt n v) : UnsignedValid v := by
  rcases h with ⟨rfl, -⟩ | ⟨q, rfl, h0, hmax, -⟩
  · exact .inl rfl
  · exact .inr ⟨q, rfl, h0, hmax⟩

theorem UnsignedValid.ne_nan {v : Value} (h : UnsignedValid v) : v ≠ .number .nan := by
  rintro rfl
  rcases h with h | ⟨q, h, -⟩
  · cases h
  · cases h

/-- A number that was read is as it should be unless it is NaN. -/
theorem unsignedOk_of_ok {name : String} {val n : Nat} {v : Value}
    (h : readUnsigned X name val v = .ok n) (hv : v ≠ .number .nan) : UnsignedOk val n v :=
  (readUnsigned_ok h).resolve_right hv

theorem unsignedOk_of_attempted {name : String} {val n : Nat} {v : Value}
    (h : Attempted (readUnsigned X name val) val v n) (hv : UnsignedValid v) : UnsignedOk val n v := by
  rcases h with h | ⟨⟨msg, h⟩, -⟩
  · exact unsignedOk_of_ok h hv.ne_nan
  · rcases hv with rfl | ⟨q, rfl, h0, hmax⟩
    · cases h
    · have hq : ¬(q < 0 ∨ (uintMax : ℚ) < q) := by
        rw [not_or, not_lt, not_lt]
        exact ⟨h0, hmax⟩
      simp only [readUnsigned, readNumber, if_neg hq] at h
      cases h

theorem boolOk_of_ok {val b : Bool} {v : Value} (h : readBool val v = .ok b) : BoolOk val b v := by
  cases v with
  | boolean c =>
    cases h
    exact .inr rfl
  | nil =>
    cases h
    exact .inl ⟨rfl, rfl⟩
  | number x => cases h
  | string s => cases h
  | table r => cases h
  | other => cases h

theorem BoolOk.valid {dflt b : Bool} {v : Value} (h : BoolOk dflt b v) : BoolValid v :=
  h.imp And.left fun h => ⟨b, h⟩

theorem boolOk_of_attempted {val b : Bool} {v : Value} (h : Attempted (readBool val) val v b)
    (hv : BoolValid v) : BoolOk val b v := by
  rcases h with h | ⟨⟨msg, h⟩, -⟩
  · exact boolOk_of_ok h
  · rcases hv with rfl | ⟨c, rfl⟩
    · cases h
    · cases h

theorem stringOk_of_ok {name s : String} {v : Value} (h : readString X name none v = .ok s) :
    StringOk X (some s) v := by
  cases v with
  | string t =>
    cases h
    exact .inl ⟨t, rfl, rfl⟩
  | number n =>
    cases h
    exact .inr ⟨n, rfl, rfl⟩
  | nil => cases h
  | boolean b => cases h
  | table r => cases h
  | other => cases h

theorem queueOk_of_ok {name : String} {val c : Char} {v : Value}
    (h : readOption name val queueOptions v = .ok c) : QueueOk val c v := by
  cases v with
  | string s =>
    simp only [readOption] at h
    split at h
    · cases h
      exact .inr ⟨s, rfl, ‹_›, rfl⟩
    · cases h
  | nil =>
    cases h
    exact .inl ⟨rfl, rfl⟩
  | number x => cases h
  | boolean b => cases h
  | table r => cases h
  | other => cases h

/-! ## The calls one after another -/

/-- The globals but those that were read are as they were. -/
def Rest (L₀ : State) (done : List String) (L : State) : Prop :=
  ∀ name, name ∉ done → L.global name = L₀.global name

variable {L₀ L L' : State} {done : List String} {name : String}

theorem Rest.mono {names : List String} (h : Rest L₀ done L) (hsub : ∀ n ∈ done, n ∈ names) :
    Rest L₀ names L :=
  fun n hn => h n fun hd => hn (hsub n hd)

theorem Rest.getItem {read : Value → Except String α} {a : α} (hR : Rest L₀ done L) (hn : name ∉ done)
    (h : M.getItem .globals name read L = some (.ok a, L')) :
    read (L₀.global name) = .ok a ∧ Rest L₀ (name :: done) L' := by
  obtain ⟨r, hr, hread, rfl⟩ := M.getItem_ok h
  cases hr
  refine ⟨?_, fun other ho => ?_⟩
  · rw [← hR name hn]
    exact hread
  · rw [List.mem_cons, not_or] at ho
    rw [State.global_remove_other L ho.1]
    exact hR other ho.2

theorem Rest.attempt {read : Value → Except String α} {val a : α} (hR : Rest L₀ done L)
    (hn : name ∉ done) (h : (M.getItem .globals name read).attempt val L = some (.ok a, L')) :
    Attempted read val (L₀.global name) a ∧ Rest L₀ (name :: done) L' := by
  have hv := hR name hn
  simp only [M.attempt, M.getItem, State.tableAt] at h
  rw [State.global] at hv
  cases hread : read ((L.heap L.globals).get name) with
  | error msg =>
    rw [hread] at h
    cases h
    refine ⟨.inr ⟨⟨msg, by rw [← hv]; exact hread⟩, rfl⟩, fun other ho => ?_⟩
    rw [List.mem_cons, not_or] at ho
    exact hR other ho.2
  | ok b =>
    rw [hread] at h
    cases h
    refine ⟨.inl (by rw [← hv]; exact hread), fun other ho => ?_⟩
    rw [List.mem_cons, not_or] at ho
    rw [State.global_remove_other L ho.1]
    exact hR other ho.2

theorem Rest.matcher {type : SandboxType} {cfg : HsSandboxConfig} {m : Option String}
    (hR : Rest L₀ done L) (hn : "message_matcher" ∉ done)
    (h : loadMatcher X type cfg L = some (.ok m, L')) :
    (type ≠ .input →
        ∃ s, readString X "message_matcher" none (L₀.global "message_matcher") = .ok s ∧ m = some s) ∧
      Rest L₀ ("message_matcher" :: done) L' := by
  unfold loadMatcher at h
  split at h
  · obtain ⟨s, L1, hs, h⟩ := M.bind_ok h
    obtain ⟨rfl, rfl⟩ := M.pure_ok h
    obtain ⟨hread, hR'⟩ := hR.getItem hn hs
    exact ⟨fun _ => ⟨s, hread, rfl⟩, hR'⟩
  · rename_i htype
    obtain ⟨rfl, rfl⟩ := M.pure_ok h
    refine ⟨fun hin => absurd ?_ htype, hR.mono fun n hm => List.mem_cons_of_mem _ hm⟩
    cases type with
    | input => exact absurd rfl hin
    | analysis => exact .inl rfl
    | output => exact .inr rfl

theorem Rest.analysis {type : SandboxType} {cfg : HsSandboxConfig} {t : Nat × Nat × Nat}
    (hR : Rest L₀ done L)
    (hn : ∀ n ∈ ["thread", "process_message_inject_limit", "timer_event_inject_limit"], n ∉ done)
    (h : loadAnalysisOptions X type cfg L = some (.ok t, L')) :
    (type = .analysis →
        Attempted (readUnsigned X "thread" cfg.thread) cfg.thread (L₀.global "thread") t.1 ∧
        Attempted (readUnsigned X "process_message_inject_limit" cfg.pmImLimit) cfg.pmImLimit
          (L₀.global "process_message_inject_limit") t.2.1 ∧
        readUnsigned X "timer_event_inject_limit" cfg.teImLimit
          (L₀.global "timer_event_inject_limit") = .ok t.2.2) ∧
      Rest L₀ ("timer_event_inject_limit" :: "process_message_inject_limit" :: "thread" :: done) L' := by
  simp only [List.forall_mem_cons] at hn
  obtain ⟨hthread, hpm, hte, -⟩ := hn
  unfold loadAnalysisOptions at h
  split at h
  · obtain ⟨thread, L1, h1, h⟩ := M.bind_ok h
    obtain ⟨pm, L2, h2, h⟩ := M.bind_ok h
    obtain ⟨te, L3, h3, h⟩ := M.bind_ok h
    obtain ⟨rfl, rfl⟩ := M.pure_ok h
    obtain ⟨r1, hR⟩ := hR.attempt hthread h1
    obtain ⟨r2, hR⟩ := hR.attempt (by simp [hpm]) h2
    obtain ⟨r3, hR⟩ := hR.getItem (by simp [hte]) h3
    exact ⟨fun _ => ⟨r1, r2, r3⟩, hR⟩
  · rename_i htype
    obtain ⟨rfl, rfl⟩ := M.pure_ok h
    exact ⟨fun ht => absurd ht htype, hR.mono fun n hm =>
      List.mem_cons_of_mem _ (List.mem_cons_of_mem _ (List.mem_cons_of_mem _ hm))⟩

theorem Rest.output {type : SandboxType} {cfg : HsSandboxConfig} {t : Nat × Bool × Char}
    (hR : Rest L₀ done L)
    (hn : ∀ n ∈ ["async_buffer_size", "remove_checkpoints_on_terminate", "read_queue"], n ∉ done)
    (h : loadOutputOptions X type cfg L = some (.ok t, L')) :
    type = .output →
      readUnsigned X "async_buffer_size" cfg.asyncBufferSize (L₀.global "async_buffer_size") = .ok t.1 ∧
      Attempted (readBool cfg.rmCpTerminate) cfg.rmCpTerminate
        (L₀.global "remove_checkpoints_on_terminate") t.2.1 ∧
      readOption "read_queue" cfg.readQueue queueOptions (L₀.global "read_queue") = .ok t.2.2 := by
  simp only [List.forall_mem_cons] at hn
  obtain ⟨hasync, hrm, hqueue, -⟩ := hn
  intro htype
  rw [loadOutputOptions, if_pos htype] at h
  obtain ⟨async, L1, h1, h⟩ := M.bind_ok h
  obtain ⟨rm, L2, h2, h⟩ := M.bind_ok h
  obtain ⟨queue, L3, h3, h⟩ := M.bind_ok h
  obtain ⟨rfl, rfl⟩ := M.pure_ok h
  obtain ⟨r1, hR⟩ := hR.getItem hasync h1
  obtain ⟨r2, hR⟩ := hR.attempt (by simp [hrm]) h2
  obtain ⟨r3, -⟩ := hR.getItem (by simp [hqueue]) h3
  exact ⟨r1, r2, r3⟩

end

/-- What the calls read. -/
structure Loaded (X : Env) (type : SandboxType) (base : HsSandboxConfig) (L : State)
    (cfg : HsSandboxConfig) : Prop where
  outputLimit :
    readUnsigned X "output_limit" base.outputLimit (L.global "output_limit") = .ok cfg.outputLimit
  memoryLimit :
    readUnsigned X "memory_limit" base.memoryLimit (L.global "memory_limit") = .ok cfg.memoryLimit
  instructionLimit :
    readUnsigned X "instruction_limit" base.instructionLimit (L.global "instruction_limit") =
      .ok cfg.instructionLimit
  tickerInterval :
    readUnsigned X "ticker_interval" base.tickerInterval (L.global "ticker_interval") =
      .ok cfg.tickerInterval
  filename : ∃ s, readString X "filename" none (L.global "filename") = .ok s ∧ cfg.filename = some s ∧
    IsLuaFile s
  preserveData : readBool base.preserveData (L.global "preserve_data") = .ok cfg.preserveData
  restrictedHeaders :
    readBool base.restrictedHeaders (L.global "restricted_headers") = .ok cfg.restrictedHeaders
  shutdownTerminate :
    readBool base.shutdownTerminate (L.global "shutdown_on_terminate") = .ok cfg.shutdownTerminate
  messageMatcher : type ≠ .input →
    ∃ s, readString X "message_matcher" none (L.global "message_matcher") = .ok s ∧
      cfg.messageMatcher = some s
  analysis : type = .analysis →
    Attempted (readUnsigned X "thread" base.thread) base.thread (L.global "thread") cfg.thread ∧
    Attempted (readUnsigned X "process_message_inject_limit" base.pmImLimit) base.pmImLimit
      (L.global "process_message_inject_limit") cfg.pmImLimit ∧
    readUnsigned X "timer_event_inject_limit" base.teImLimit (L.global "timer_event_inject_limit") =
      .ok cfg.teImLimit
  output : type = .output →
    readUnsigned X "async_buffer_size" base.asyncBufferSize (L.global "async_buffer_size") =
      .ok cfg.asyncBufferSize ∧
    Attempted (readBool base.rmCpTerminate) base.rmCpTerminate
      (L.global "remove_checkpoints_on_terminate") cfg.rmCpTerminate ∧
    readOption "read_queue" base.readQueue queueOptions (L.global "read_queue") = .ok cfg.readQueue

section

variable {X : Env} {type : SandboxType}

theorem loaded_of_ok {base cfg : HsSandboxConfig} {L L' : State}
    (h : loadSandboxOptions X type base L = some (.ok cfg, L')) : Loaded X type base L cfg := by
  have hR : Rest L [] L := fun _ _ => rfl
  obtain ⟨outputLimit, _, h1, h⟩ := M.bind_ok h
  obtain ⟨r1, hR⟩ := hR.getItem (by decide) h1
  obtain ⟨memoryLimit, _, h2, h⟩ := M.bind_ok h
  obtain ⟨r2, hR⟩ := hR.getItem (by decide) h2
  obtain ⟨instructionLimit, _, h3, h⟩ := M.bind_ok h
  obtain ⟨r3, hR⟩ := hR.getItem (by decide) h3
  obtain ⟨tickerInterval, _, h4, h⟩ := M.bind_ok h
  obtain ⟨r4, hR⟩ := hR.getItem (by decide) h4
  obtain ⟨filename, _, h5, h⟩ := M.bind_ok h
  obtain ⟨r5, hR⟩ := hR.getItem (by decide) h5
  obtain ⟨_, _, hslash, h⟩ := M.bind_ok h
  obtain ⟨hpath, rfl⟩ := M.checkThat_ok hslash
  obtain ⟨_, _, hlua, h⟩ := M.bind_ok h
  obtain ⟨hext, rfl⟩ := M.checkThat_ok hlua
  obtain ⟨preserveData, _, h6, h⟩ := M.bind_ok h
  obtain ⟨r6, hR⟩ := hR.getItem (by decide) h6
  obtain ⟨restrictedHeaders, _, h7, h⟩ := M.bind_ok h
  obtain ⟨r7, hR⟩ := hR.getItem (by decide) h7
  obtain ⟨shutdownTerminate, _, h8, h⟩ := M.bind_ok h
  obtain ⟨r8, hR⟩ := hR.getItem (by decide) h8
  obtain ⟨messageMatcher, _, h9, h⟩ := M.bind_ok h
  obtain ⟨r9, hR⟩ := hR.matcher (by decide) h9
  obtain ⟨⟨thread, pmImLimit, teImLimit⟩, _, h10, h⟩ := M.bind_ok h
  obtain ⟨r10, hR⟩ := hR.analysis (by decide) h10
  obtain ⟨⟨asyncBufferSize, rmCpTerminate, readQueue⟩, _, h11, h⟩ := M.bind_ok h
  have r11 := hR.output (by decide) h11
  obtain ⟨rfl, -⟩ := M.pure_ok h
  exact ⟨r1, r2, r3, r4, ⟨filename, r5, rfl, hpath, hext⟩, r6, r7, r8, r9, r10, r11⟩

/-- What is accepted was loaded with the inherited defaults. -/
theorem accepted_loaded {dir fn : String} {text : Option String} {L : State}
    {dflt : Option HsSandboxConfig} {cfg : HsSandboxConfig}
    (h : hsLoadSandboxConfig X dir fn ⟨text, .ok L⟩ dflt type = some (.ok cfg)) :
    ∃ text, Loaded X type (beforeOptions dir fn text dflt type) L cfg := by
  obtain ⟨-, _, _, L', hL, hload⟩ := hsLoadSandboxConfig_ok h
  cases hL
  exact ⟨_, loaded_of_ok hload⟩

/-- The configuration before the options has what is inherited. -/
theorem beforeOptions_eq (dir fn text : String) (dflt : Option HsSandboxConfig)
    (type : SandboxType) :
    let base := beforeOptions dir fn text dflt type
    let d := inherited dflt
    (base.outputLimit = d.outputLimit ∧ base.memoryLimit = d.memoryLimit ∧
      base.instructionLimit = d.instructionLimit ∧ base.tickerInterval = d.tickerInterval) ∧
    (base.preserveData = d.preserveData ∧ base.restrictedHeaders = d.restrictedHeaders ∧
      base.shutdownTerminate = d.shutdownTerminate) ∧
    (base.thread = uintMax ∧ base.pmImLimit = d.pmImLimit ∧ base.teImLimit = d.teImLimit) ∧
    base.asyncBufferSize = 0 ∧ base.rmCpTerminate = d.rmCpTerminate ∧ base.readQueue = d.readQueue := by
  cases dflt with
  | none => exact ⟨⟨rfl, rfl, rfl, rfl⟩, ⟨rfl, rfl, rfl⟩, ⟨rfl, rfl, rfl⟩, rfl, rfl, rfl⟩
  | some d => exact ⟨⟨rfl, rfl, rfl, rfl⟩, ⟨rfl, rfl, rfl⟩, ⟨rfl, rfl, rfl⟩, rfl, rfl, rfl⟩

/-- Where the three options are valid and no number is NaN, what was loaded is right. -/
theorem reads_of_loaded {dir fn text : String} {L : State} {dflt : Option HsSandboxConfig}
    {cfg : HsSandboxConfig} (h : Loaded X type (beforeOptions dir fn text dflt type) L cfg)
    (hA : Admits type L) : Reads X type dflt L cfg := by
  obtain ⟨⟨b1, b2, b3, b4⟩, ⟨b5, b6, b7⟩, ⟨b8, b9, b10⟩, b11, b12, b13⟩ :=
    beforeOptions_eq dir fn text dflt type
  have hcommon : ∀ name ∈ ["output_limit", "memory_limit", "instruction_limit", "ticker_interval"],
      name ∈ numericOptions type := by
    cases type <;> decide
  have hnum : ∀ name ∈ ["output_limit", "memory_limit", "instruction_limit", "ticker_interval"],
      L.global name ≠ .number .nan := fun name hm => hA.numbers name (hcommon name hm)
  simp only [List.forall_mem_cons] at hnum
  obtain ⟨n1, n2, n3, n4, -⟩ := hnum
  exact
    { outputLimit := b1 ▸ unsignedOk_of_ok h.outputLimit n1
      memoryLimit := b2 ▸ unsignedOk_of_ok h.memoryLimit n2
      instructionLimit := b3 ▸ unsignedOk_of_ok h.instructionLimit n3
      tickerInterval := b4 ▸ unsignedOk_of_ok h.tickerInterval n4
      preserveData := b5 ▸ boolOk_of_ok h.preserveData
      restrictedHeaders := b6 ▸ boolOk_of_ok h.restrictedHeaders
      shutdownTerminate := b7 ▸ boolOk_of_ok h.shutdownTerminate
      filename := by
        obtain ⟨s, hs, hfile, hlua⟩ := h.filename
        rw [hfile]
        refine ⟨stringOk_of_ok hs, fun t ht => ?_⟩
        cases ht
        exact hlua
      messageMatcher := fun ht => by
        obtain ⟨s, hs, hm⟩ := h.messageMatcher ht
        rw [hm]
        exact stringOk_of_ok hs
      thread := fun ht => b8 ▸ unsignedOk_of_attempted (h.analysis ht).1 (hA.thread ht)
      pmImLimit := fun ht => b9 ▸ unsignedOk_of_attempted (h.analysis ht).2.1 (hA.pmImLimit ht)
      teImLimit := fun ht => by
        subst ht
        exact b10 ▸ unsignedOk_of_ok (h.analysis rfl).2.2 (hA.numbers _ (by decide))
      asyncBufferSize := fun ht => by
        subst ht
        exact b11 ▸ unsignedOk_of_ok (h.output rfl).1 (hA.numbers _ (by decide))
      rmCpTerminate := fun ht => b12 ▸ boolOk_of_attempted (h.output ht).2.1 (hA.rmCpTerminate ht)
      readQueue := fun ht => b13 ▸ queueOk_of_ok (h.output ht).2.2 }

theorem admits_of_reads {L : State} {dflt : Option HsSandboxConfig} {cfg : HsSandboxConfig}
    (h : Reads X type dflt L cfg) : Admits type L where
  thread ht := (h.thread ht).valid
  pmImLimit ht := (h.pmImLimit ht).valid
  rmCpTerminate ht := (h.rmCpTerminate ht).valid
  numbers := by
    have h1 := h.outputLimit.valid.ne_nan
    have h2 := h.memoryLimit.valid.ne_nan
    have h3 := h.instructionLimit.valid.ne_nan
    have h4 := h.tickerInterval.valid.ne_nan
    cases type with
    | input => simp [numericOptions, h1, h2, h3, h4]
    | analysis => simp [numericOptions, h1, h2, h3, h4, (h.teImLimit rfl).valid.ne_nan]
    | output => simp [numericOptions, h1, h2, h3, h4, (h.asyncBufferSize rfl).valid.ne_nan]

end

/-- Of an accepted file every option of the type is valid and every field is right exactly when the three
options whose results are overwritten are valid and no number is NaN. -/
theorem reads_iff (X : Env) (dir fn : String) (text : Option String) (L : State)
    (dflt : Option HsSandboxConfig) (type : SandboxType) (cfg : HsSandboxConfig)
    (h : hsLoadSandboxConfig X dir fn ⟨text, .ok L⟩ dflt type = some (.ok cfg)) :
    Reads X type dflt L cfg ↔ Admits type L := by
  obtain ⟨_, hloaded⟩ := accepted_loaded h
  exact ⟨admits_of_reads, reads_of_loaded hloaded⟩

/-- An analysis plugin with a thread option. -/
def threadPlugin (thread : Value) : State where
  heap _ :=
    [(.string "filename", .string "a.lua"), (.string "message_matcher", .string "TRUE"),
      (.string "thread", thread)]
  globals := 0
  stack := []

theorem threadPlugin_accepted (thread : Value)
    (h : ((hsLoadSandboxConfig plainEnv "run/analysis" "a.cfg" ⟨some "", .ok (threadPlugin thread)⟩ none
      .analysis).bind Except.toOption).isSome = true) :
    ∃ cfg, hsLoadSandboxConfig plainEnv "run/analysis" "a.cfg" ⟨some "", .ok (threadPlugin thread)⟩ none
      .analysis = some (.ok cfg) := by
  obtain ⟨cfg, hcfg⟩ := Option.isSome_iff_exists.mp h
  exact ⟨cfg, ok_of_toOption hcfg⟩

theorem reads_iff_two :
    ∃ cfg, hsLoadSandboxConfig plainEnv "run/analysis" "a.cfg"
        ⟨some "", .ok (threadPlugin (.number (.finite 2)))⟩ none .analysis = some (.ok cfg) ∧
      (Reads plainEnv .analysis none (threadPlugin (.number (.finite 2))) cfg ↔
        Admits .analysis (threadPlugin (.number (.finite 2)))) := by
  obtain ⟨cfg, hcfg⟩ := threadPlugin_accepted (.number (.finite 2)) (by decide +kernel)
  exact ⟨cfg, hcfg, reads_iff _ _ _ _ _ _ _ cfg hcfg⟩

/-- The thread is a string. -/
theorem reads_fails :
    ¬∀ (X : Env) (dir fn : String) (text : Option String) (L : State) (dflt : Option HsSandboxConfig)
      (type : SandboxType) (cfg : HsSandboxConfig),
      hsLoadSandboxConfig X dir fn ⟨text, .ok L⟩ dflt type = some (.ok cfg) →
        Reads X type dflt L cfg := by
  intro h
  obtain ⟨cfg, hcfg⟩ := threadPlugin_accepted (.string "x") (by decide +kernel)
  have hread := (h _ _ _ _ _ _ _ _ hcfg).thread rfl
  have hthread : (threadPlugin (.string "x")).global "thread" = .string "x" := by decide +kernel
  rw [hthread] at hread
  rcases hread with ⟨hv, -⟩ | ⟨q, hv, -⟩
  · cases hv
  · cases hv

end SandboxOptions

end Hindsight
