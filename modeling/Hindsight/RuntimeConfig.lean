import Hindsight.Config

/-!
# Hindsight.RuntimeConfig

The configuration handed to a sandbox (`hs_output_runtime_cfg`): the text of the plugin's file and then the
lines that override it. Each `lsb_outputf` appends its text or leaves the buffer as it is; only the result
of the last one is looked at. Nor are the results of `fwrite` and `fclose` of the `.rtc` file, so what the
file then holds is a parameter. A character stands for one byte.

* `hsOutputRuntimeCfg`: the buffer, the `.rtc` file and the result.
* `Fits`: every text is accepted where it would go; `posAfter`: where the buffer ends when those that are
  not accepted are left out.
* `whole_iff`: when a configuration that is reported as written is whole.
-/

namespace Hindsight

namespace RuntimeConfig

open Config

/-! ## The buffer -/

/-- When `lsb_outputf` takes a text: the limit of the buffer, its position and the length of the text. -/
abbrev Accepts := Nat → Nat → Nat → Bool

/-- `lsb_outputf`: the buffer, and whether the text was appended. -/
def lsbOutputf (accepts : Accepts) (limit : Nat) (ob text : String) : String × Bool :=
  if accepts limit ob.length text.length then (ob ++ text, true) else (ob, false)

/-- Calls of `lsb_outputf` whose results are not looked at. -/
def outputAll (accepts : Accepts) (limit : Nat) : String → List String → String
  | ob, [] => ob
  | ob, text :: texts => outputAll accepts limit (lsbOutputf accepts limit ob text).1 texts

/-- The texts one after another. -/
def join : List String → String
  | [] => ""
  | text :: texts => text ++ join texts

/-- Every text is accepted after all texts before it. -/
def Fits (accepts : Accepts) (limit : Nat) : Nat → List Nat → Prop
  | _, [] => True
  | pos, len :: lens => accepts limit pos len = true ∧ Fits accepts limit (pos + len) lens

/-- The position after the texts that are accepted. -/
def posAfter (accepts : Accepts) (limit : Nat) : Nat → List Nat → Nat
  | pos, [] => pos
  | pos, len :: lens =>
    posAfter accepts limit (if accepts limit pos len then pos + len else pos) lens

section

variable {accepts : Accepts} {limit : Nat}

theorem length_lsbOutputf (ob text : String) :
    (lsbOutputf accepts limit ob text).1.length =
      if accepts limit ob.length text.length then ob.length + text.length else ob.length := by
  unfold lsbOutputf
  split
  · exact String.length_append ob text
  · rfl

theorem length_outputAll (ob : String) (texts : List String) :
    (outputAll accepts limit ob texts).length =
      posAfter accepts limit ob.length (texts.map String.length) := by
  induction texts generalizing ob with
  | nil => rfl
  | cons text texts ih =>
    rw [outputAll, ih, length_lsbOutputf]
    rfl

theorem length_join (texts : List String) : (join texts).length = (texts.map String.length).sum := by
  induction texts with
  | nil => rfl
  | cons text texts ih => rw [join, String.length_append, ih, List.map_cons, List.sum_cons]

theorem posAfter_le (pos : Nat) (lens : List Nat) :
    posAfter accepts limit pos lens ≤ pos + lens.sum := by
  induction lens generalizing pos with
  | nil => exact Nat.le_refl pos
  | cons len lens ih =>
    rw [posAfter, List.sum_cons]
    refine (ih _).trans ?_
    split <;> omega

/-- Nothing is left out just if the buffer ends where the texts together end. -/
theorem posAfter_eq_iff {pos : Nat} {lens : List Nat} (hpos : ∀ len ∈ lens, 0 < len) :
    posAfter accepts limit pos lens = pos + lens.sum ↔ Fits accepts limit pos lens := by
  induction lens generalizing pos with
  | nil => exact iff_of_true rfl trivial
  | cons len lens ih =>
    rw [List.forall_mem_cons] at hpos
    rw [posAfter, Fits, List.sum_cons, ← Nat.add_assoc]
    by_cases h : accepts limit pos len = true
    · rw [if_pos h, ih hpos.2, and_iff_right h]
    · rw [if_neg h]
      have hle : posAfter accepts limit pos lens ≤ pos + lens.sum := posAfter_le pos lens
      exact iff_of_false (by omega) fun hf => h hf.1

theorem fits_append {pos len : Nat} {lens : List Nat} :
    Fits accepts limit pos (lens ++ [len]) ↔
      Fits accepts limit pos lens ∧ accepts limit (pos + lens.sum) len = true := by
  induction lens generalizing pos with
  | nil => simp [Fits]
  | cons l lens ih =>
    rw [List.cons_append, Fits, ih, Fits, List.sum_cons, ← Nat.add_assoc, and_assoc]

theorem outputAll_of_fits {ob : String} {texts : List String}
    (h : Fits accepts limit ob.length (texts.map String.length)) :
    outputAll accepts limit ob texts = ob ++ join texts := by
  induction texts generalizing ob with
  | nil => exact String.append_empty.symm
  | cons text texts ih =>
    obtain ⟨htext, hrest⟩ := h
    have hout : (lsbOutputf accepts limit ob text).1 = ob ++ text := by rw [lsbOutputf, if_pos htext]
    rw [outputAll, hout, ih (by rw [String.length_append]; exact hrest), join, String.append_assoc]

/-- The buffer holds all texts exactly when each of them was accepted. -/
theorem outputAll_eq_iff {ob : String} {texts : List String} (hpos : ∀ text ∈ texts, 0 < text.length) :
    outputAll accepts limit ob texts = ob ++ join texts ↔
      Fits accepts limit ob.length (texts.map String.length) := by
  refine ⟨fun h => ?_, outputAll_of_fits⟩
  have hlen := congrArg String.length h
  rw [length_outputAll, String.length_append, length_join] at hlen
  exact (posAfter_eq_iff (List.forall_mem_map.mpr hpos)).mp hlen

end

/-! ## The lines -/

/-- `%s`. -/
def text (s : Option String) : String := s.getD "(null)"

/-- A line that sets a string. -/
def stringLine (name : String) (s : Option String) : String := name ++ " = [[" ++ text s ++ "]]\n"

def numberLine (name : String) (n : Nat) : String := name ++ " = " ++ toString n ++ "\n"

def boolLine (name : String) (b : Bool) : String :=
  name ++ " = " ++ (if b then "true" else "false") ++ "\n"

/-- The lines of the daemon. -/
def hindsightLines (logLevel : Nat) (type : SandboxType) (cfg : Config.HsConfig) : List String :=
  ["-- Hindsight defaults and overrides\n", stringLine "Hostname" cfg.hostname, numberLine "Pid" cfg.pid,
    numberLine "log_level" logLevel] ++
  if type = .analysis then
    [stringLine "path" cfg.analysisLuaPath, stringLine "cpath" cfg.analysisLuaCpath]
  else
    [stringLine "path" cfg.ioLuaPath, stringLine "cpath" cfg.ioLuaCpath,
      stringLine "output_path" cfg.outputPath, numberLine "output_size" cfg.outputSize,
      numberLine "max_message_size" cfg.maxMessageSize, stringLine "sandbox_load_path" cfg.loadPath,
      stringLine "sandbox_run_path" cfg.runPath, stringLine "sandbox_install_path" cfg.installPath]

/-- The lines of all sandboxes. -/
def sandboxLines (sbc : HsSandboxConfig) : List String :=
  ["\n-- Sandbox defaults and overrides\n", stringLine "Logger" sbc.cfgName,
    numberLine "output_limit" sbc.outputLimit, numberLine "memory_limit" sbc.memoryLimit,
    numberLine "instruction_limit" sbc.instructionLimit, numberLine "ticker_interval" sbc.tickerInterval,
    boolLine "preserve_data" sbc.preserveData, boolLine "restricted_headers" sbc.restrictedHeaders,
    boolLine "shutdown_on_terminate" sbc.shutdownTerminate]

def readQueueLine (queue : Char) : String :=
  if queue = 'i' then "read_queue = \"input\"\n"
  else if queue = 'a' then "read_queue = \"analysis\"\n"
  else "read_queue = \"both\"\n"

/-- The lines of one type of sandbox. -/
def typeLines (type : SandboxType) (sbc : HsSandboxConfig) : List String :=
  match type with
  | .input => []
  | .analysis =>
    [numberLine "thread" sbc.thread, numberLine "process_message_inject_limit" sbc.pmImLimit,
      numberLine "timer_event_inject_limit" sbc.teImLimit]
  | .output =>
    [numberLine "async_buffer_size" sbc.asyncBufferSize,
      boolLine "remove_checkpoints_on_terminate" sbc.rmCpTerminate, readQueueLine sbc.readQueue]

/-- Everything but the last line, in the order of the calls. -/
def runtimeLines (logLevel : Nat) (type : SandboxType) (cfg : Config.HsConfig) (sbc : HsSandboxConfig) :
    List String :=
  ["-- original configuration\n", cString (text sbc.cfgLua) ++ "\n"] ++ hindsightLines logLevel type cfg ++
    sandboxLines sbc ++ typeLines type sbc

def endLine : String := "-- end Hindsight configuration\n"

/-- The original configuration, every override and the last line. -/
def runtimeText (logLevel : Nat) (type : SandboxType) (cfg : Config.HsConfig) (sbc : HsSandboxConfig) :
    String :=
  join (runtimeLines logLevel type cfg sbc) ++ endLine

/-! ## The function -/

/-- The buffer for the sandbox, the `.rtc` file that was written and the result. -/
structure RuntimeCfg where
  ob : String
  rtc : Option (String × String)
  ok : Bool

/-- `hs_rtc_ext`. -/
def hsRtcExt : String := ".rtc"

/-- The limit the callers set up the buffer with. -/
def bufferLimit (sbc : HsSandboxConfig) : Nat := (cString (text sbc.cfgLua)).length + 8 * 1024

/-- The name of the `.rtc` file. -/
def rtcName (cfg : Config.HsConfig) (sbc : HsSandboxConfig) : String :=
  text cfg.outputPath ++ "/" ++ text sbc.cfgName ++ hsRtcExt

/-- The files: whether one can be opened for writing, and what it holds when a text was written to it and
it is closed. -/
structure Files where
  opens : String → Bool
  written : String → String → String

/-- `hs_output_runtime_cfg` on the empty buffer of its callers. -/
def hsOutputRuntimeCfg (accepts : Accepts) (files : Files) (logLevel : Nat) (type : SandboxType)
    (cfg : Config.HsConfig) (sbc : HsSandboxConfig) : RuntimeCfg :=
  let limit := bufferLimit sbc
  let ob := outputAll accepts limit "" (runtimeLines logLevel type cfg sbc)
  -- the last write is to show whether the buffer was exhausted
  let last := lsbOutputf accepts limit ob endLine
  let fn := rtcName cfg sbc
  if files.opens fn then ⟨last.1, some (fn, files.written fn last.1), last.2⟩ else ⟨last.1, none, false⟩

/-- What is reported as written is the whole configuration, in the buffer and in the file. -/
def RuntimeCfg.Whole (r : RuntimeCfg) (whole : String) : Prop :=
  r.ok = true → r.ob = whole ∧ ∃ fn, r.rtc = some (fn, whole)

section

variable {logLevel : Nat} {type : SandboxType} {cfg : Config.HsConfig} {sbc : HsSandboxConfig}

theorem length_append_pos (s : String) {line : String} (h : 0 < line.length) :
    0 < (s ++ line).length := by
  rw [String.length_append]
  omega

@[simp] theorem length_stringLine_pos (name : String) (s : Option String) : 0 < (stringLine name s).length :=
  length_append_pos _ (by decide)

@[simp] theorem length_numberLine_pos (name : String) (n : Nat) : 0 < (numberLine name n).length :=
  length_append_pos _ (by decide)

@[simp] theorem length_boolLine_pos (name : String) (b : Bool) : 0 < (boolLine name b).length :=
  length_append_pos _ (by decide)

@[simp] theorem length_readQueueLine_pos (queue : Char) : 0 < (readQueueLine queue).length := by
  unfold readQueueLine
  split
  · decide
  · split
    · decide
    · decide

theorem length_typeLines_pos : ∀ line ∈ typeLines type sbc, 0 < line.length := by
  cases type with
  | input => exact fun line h => absurd h List.not_mem_nil
  | analysis => simp [typeLines]
  | output => simp [typeLines]

theorem length_hindsightLines_pos : ∀ line ∈ hindsightLines logLevel type cfg, 0 < line.length := by
  have hhead : 0 < "-- Hindsight defaults and overrides\n".length := by decide
  unfold hindsightLines
  split
  · simp [hhead]
  · simp [hhead]

/-- No line is empty. -/
theorem length_runtimeLines_pos : ∀ line ∈ runtimeLines logLevel type cfg sbc, 0 < line.length := by
  have hfirst : 0 < "-- original configuration\n".length := by decide
  have hhead : 0 < "\n-- Sandbox defaults and overrides\n".length := by decide
  have hlua : 0 < (cString (text sbc.cfgLua) ++ "\n").length := length_append_pos _ (by decide)
  simp only [runtimeLines, List.forall_mem_append]
  refine ⟨⟨⟨?_, length_hindsightLines_pos⟩, ?_⟩, length_typeLines_pos⟩
  · simp only [List.forall_mem_cons]
    exact ⟨hfirst, hlua, fun line h => absurd h List.not_mem_nil⟩
  · simp [sandboxLines, hhead]

end

section

variable {accepts : Accepts} {files : Files} {logLevel : Nat} {type : SandboxType}
  {cfg : Config.HsConfig} {sbc : HsSandboxConfig}

/-- Where the buffer ends before the last line. -/
def lastPos (accepts : Accepts) (logLevel : Nat) (type : SandboxType) (cfg : Config.HsConfig)
    (sbc : HsSandboxConfig) : Nat :=
  posAfter accepts (bufferLimit sbc) 0 ((runtimeLines logLevel type cfg sbc).map String.length)

theorem length_before_last :
    (outputAll accepts (bufferLimit sbc) "" (runtimeLines logLevel type cfg sbc)).length =
      lastPos accepts logLevel type cfg sbc :=
  length_outputAll "" _

/-- Success is the last line in the buffer and the file opened. -/
theorem hsOutputRuntimeCfg_ok :
    (hsOutputRuntimeCfg accepts files logLevel type cfg sbc).ok = true ↔
      accepts (bufferLimit sbc) (lastPos accepts logLevel type cfg sbc) endLine.length = true ∧
        files.opens (rtcName cfg sbc) = true := by
  simp only [hsOutputRuntimeCfg, lsbOutputf, length_before_last]
  split
  · rename_i hopens
    split
    · rename_i hacc
      exact iff_of_true rfl ⟨hacc, hopens⟩
    · rename_i hacc
      exact iff_of_false Bool.false_ne_true fun h => hacc h.1
  · rename_i hopens
    exact iff_of_false Bool.false_ne_true fun h => hopens h.2

/-- On success the buffer is what was accepted and the last line, and the file what is left of the
buffer. -/
theorem hsOutputRuntimeCfg_ob
    (hok : (hsOutputRuntimeCfg accepts files logLevel type cfg sbc).ok = true) :
    (hsOutputRuntimeCfg accepts files logLevel type cfg sbc).ob =
        outputAll accepts (bufferLimit sbc) "" (runtimeLines logLevel type cfg sbc) ++ endLine ∧
      (hsOutputRuntimeCfg accepts files logLevel type cfg sbc).rtc =
        some (rtcName cfg sbc, files.written (rtcName cfg sbc)
          (hsOutputRuntimeCfg accepts files logLevel type cfg sbc).ob) := by
  obtain ⟨hacc, hopens⟩ := hsOutputRuntimeCfg_ok.mp hok
  simp only [hsOutputRuntimeCfg, lsbOutputf, length_before_last, if_pos hacc, if_pos hopens]
  exact ⟨trivial, trivial⟩

/-- On success the configuration is whole just if nothing was left out and the file holds all of it. -/
theorem whole_of_ok
    (hok : (hsOutputRuntimeCfg accepts files logLevel type cfg sbc).ok = true) :
    (hsOutputRuntimeCfg accepts files logLevel type cfg sbc).Whole
        (runtimeText logLevel type cfg sbc) ↔
      Fits accepts (bufferLimit sbc) 0 ((runtimeLines logLevel type cfg sbc).map String.length) ∧
        files.written (rtcName cfg sbc) (runtimeText logLevel type cfg sbc) =
          runtimeText logLevel type cfg sbc := by
  obtain ⟨hob, hrtc⟩ := hsOutputRuntimeCfg_ob hok
  have hall : outputAll accepts (bufferLimit sbc) "" (runtimeLines logLevel type cfg sbc) =
        "" ++ join (runtimeLines logLevel type cfg sbc) ↔
      Fits accepts (bufferLimit sbc) 0 ((runtimeLines logLevel type cfg sbc).map String.length) :=
    outputAll_eq_iff length_runtimeLines_pos
  rw [String.empty_append] at hall
  rw [← hall]
  constructor
  · intro hwhole
    obtain ⟨htext, fn, hfile⟩ := hwhole hok
    refine ⟨(String.append_left_inj endLine).mp (hob.symm.trans htext), ?_⟩
    rw [hrtc, htext, Option.some.injEq, Prod.mk.injEq] at hfile
    exact hfile.2
  · rintro ⟨heq, hwritten⟩ _
    have htext : (hsOutputRuntimeCfg accepts files logLevel type cfg sbc).ob =
        runtimeText logLevel type cfg sbc := by
      rw [hob, heq]
      rfl
    refine ⟨htext, rtcName cfg sbc, ?_⟩
    rw [hrtc, htext, hwritten]

end

/-- What is reported as written is whole exactly when every text fits after all texts before it and the file
holds all that was written to it, or the last line does not fit after those that do, or the file cannot be
opened. -/
theorem whole_iff (accepts : Accepts) (files : Files) (logLevel : Nat) (type : SandboxType)
    (cfg : Config.HsConfig) (sbc : HsSandboxConfig) :
    (hsOutputRuntimeCfg accepts files logLevel type cfg sbc).Whole
        (runtimeText logLevel type cfg sbc) ↔
      (Fits accepts (bufferLimit sbc) 0
          ((runtimeLines logLevel type cfg sbc ++ [endLine]).map String.length) ∧
        files.written (rtcName cfg sbc) (runtimeText logLevel type cfg sbc) =
          runtimeText logLevel type cfg sbc) ∨
        accepts (bufferLimit sbc) (lastPos accepts logLevel type cfg sbc) endLine.length = false ∨
        files.opens (rtcName cfg sbc) = false := by
  by_cases hok : (hsOutputRuntimeCfg accepts files logLevel type cfg sbc).ok = true
  · obtain ⟨hacc, hopens⟩ := hsOutputRuntimeCfg_ok.mp hok
    rw [whole_of_ok hok, List.map_append, List.map_singleton, fits_append, hacc, hopens]
    constructor
    · rintro ⟨hfits, hwritten⟩
      refine .inl ⟨⟨hfits, ?_⟩, hwritten⟩
      rw [← (posAfter_eq_iff (List.forall_mem_map.mpr length_runtimeLines_pos)).mpr hfits]
      exact hacc
    · rintro (⟨⟨hfits, -⟩, hwritten⟩ | h | h)
      · exact ⟨hfits, hwritten⟩
      · cases h
      · cases h
  · refine iff_of_true (fun h => absurd h hok) (.inr ?_)
    rw [hsOutputRuntimeCfg_ok, not_and_or, Bool.not_eq_true, Bool.not_eq_true] at hok
    exact hok

/-- A text goes in when it and the byte that ends it fit. -/
def bounded : Accepts := fun limit pos len => decide (pos + len < limit)

/-- Every string is short but the search path of the modules. -/
def pathConfig (path : String) : Config.HsConfig :=
  { Config.initConfig ⟨fun _ => "", fun _ => 0, "", 0⟩ with
    hostname := some "h", ioLuaPath := some path, ioLuaCpath := some "c", outputPath := some "o"
    loadPath := some "l", runPath := some "r", installPath := some "i" }

def smallSandbox : HsSandboxConfig := beforeOptions "r/input" "x.cfg" "filename = 'x.lua'\n" none .input

theorem length_stringLine (name s : String) :
    (stringLine name (some s)).length = name.length + s.length + 8 := by
  have hopen : " = [[".length = 5 := by decide
  have hclose : "]]\n".length = 3 := by decide
  simp only [stringLine, text, Option.getD_some, String.length_append, hopen, hclose]
  omega

theorem pathConfig_lengths (path : String) :
    (runtimeLines 6 .input (pathConfig path) smallSandbox).map String.length =
      [26, 20, 36, 17, 8, 14, path.length + 12, 14, 20, 23, 25, 26, 25, 29, 35, 21, 21, 23, 28, 20, 22,
        26, 30] := by
  have hpath : (stringLine "path" (some path)).length = path.length + 12 := by
    rw [length_stringLine]
    have : "path".length = 4 := by decide
    omega
  simp only [runtimeLines, hindsightLines, pathConfig, initConfig, sandboxLines, typeLines,
    List.map_cons, List.map_nil, List.cons_append, List.nil_append, List.append_nil,
    reduceCtorEq, if_false, hpath, List.cons.injEq, true_and, and_true]
  decide +kernel

/-- The search path does not fit into the buffer, everything else does. -/
theorem whole_fails :
    ¬∀ (accepts : Accepts) (files : Files) (logLevel : Nat) (type : SandboxType)
      (cfg : Config.HsConfig) (sbc : HsSandboxConfig),
      (hsOutputRuntimeCfg accepts files logLevel type cfg sbc).Whole
        (runtimeText logLevel type cfg sbc) := by
  intro h
  have hlens := pathConfig_lengths (String.ofList (List.replicate 9000 'x'))
  rw [String.length_ofList, List.length_replicate] at hlens
  have hlimit : bufferLimit smallSandbox = 8211 := by decide
  have hok : (hsOutputRuntimeCfg bounded ⟨fun _ => true, fun _ written => written⟩ 6 .input
      (pathConfig (String.ofList (List.replicate 9000 'x'))) smallSandbox).ok = true := by
    rw [hsOutputRuntimeCfg_ok, lastPos, hlens, hlimit]
    have hlast : endLine.length = 31 := by decide
    simp [posAfter, bounded, hlast]
  have hfits := ((whole_of_ok hok).mp (h _ _ _ _ _ _)).1
  rw [hlens] at hfits
  exact absurd (of_decide_eq_true hfits.2.2.2.2.2.2.1) (by rw [hlimit]; decide)

end RuntimeConfig

end Hindsight
