import Hindsight.Config

/-!
# Hindsight.MainOptions

What `hs_load_config` accepts. The options are read one after another and removed when they were read; what
is left over is refused. Three error codes are overwritten before they are tested, and the options of a
default table are read from the bottom of the stack and removed from the table itself, which may have
another name.

* `Clean`: the file sets only options there are, its numbers are in range and in their fields, and the
  limits are kept.
* `readTable`: what is read for a default table: that table, one a value of the chunk stands for, or
  nothing where the table was read before.
* `clean_iff`: an accepted configuration is clean exactly when each default table agrees with what is read
  for it.
-/

namespace Hindsight

namespace MainOptions

open Config LuaApi

/-! ## Options -/

/-- A numeric option: absent, or a number up to `max` the integer part of which is in the field. -/
def NumberOk (max field : Nat) (v : Value) : Prop :=
  v = .nil ∨ ∃ q : ℚ, v = .number (.finite q) ∧ 0 ≤ q ∧ q ≤ max ∧ field = q.floor.toNat

def IsString (v : Value) : Prop := (∃ s, v = .string s) ∨ ∃ n, v = .number n

/-- The keys are among the names. -/
def OnlyKeys (t : Table) (names : List String) : Prop := ∀ e ∈ t, ∃ name ∈ names, e.1 = .string name

def mainOptions : List String :=
  ["max_message_size", "output_path", "output_size", "backpressure", "backpressure_disk_free",
    "sandbox_load_path", "analysis_utilization_limit", "sandbox_run_path", "sandbox_install_path",
    "io_lua_path", "io_lua_cpath", "analysis_lua_path", "analysis_lua_cpath", "hostname",
    "analysis_threads", "input_defaults", "analysis_defaults", "output_defaults"]

/-- The numeric options with the largest value and the field of each. -/
def mainNumbers : List (String × Nat × (Config.HsConfig → Nat)) :=
  [("max_message_size", uintMax, fun cfg => cfg.maxMessageSize),
    ("output_size", uintMax, fun cfg => cfg.outputSize),
    ("backpressure", uintMax, fun cfg => cfg.backpressure),
    ("backpressure_disk_free", uintMax, fun cfg => cfg.backpressureDf),
    ("analysis_utilization_limit", uint8Max, fun cfg => cfg.analysisUtilizationLimit),
    ("analysis_threads", uint8Max, fun cfg => cfg.analysisThreads)]

/-- The strings without a default. -/
def requiredStrings : List String :=
  ["output_path", "sandbox_run_path", "io_lua_path", "io_lua_cpath", "analysis_lua_path",
    "analysis_lua_cpath"]

def defaultsKey : SandboxType → String
  | .input => "input_defaults"
  | .analysis => "analysis_defaults"
  | .output => "output_defaults"

/-- The numeric options of a default table with their fields. -/
def tableNumbers (type : SandboxType) : List (String × (HsSandboxConfig → Nat)) :=
  [("output_limit", fun cfg => cfg.outputLimit), ("memory_limit", fun cfg => cfg.memoryLimit),
    ("instruction_limit", fun cfg => cfg.instructionLimit),
    ("ticker_interval", fun cfg => cfg.tickerInterval)] ++
  match type with
  | .analysis =>
    [("process_message_inject_limit", fun cfg => cfg.pmImLimit),
      ("timer_event_inject_limit", fun cfg => cfg.teImLimit)]
  | .input => []
  | .output => []

def tableOptions (type : SandboxType) : List String :=
  ["output_limit", "memory_limit", "instruction_limit", "ticker_interval", "preserve_data",
    "restricted_headers", "shutdown_on_terminate"] ++
  match type with
  | .input => []
  | .analysis => ["process_message_inject_limit", "timer_event_inject_limit"]
  | .output => ["remove_checkpoints_on_terminate", "read_queue"]

/-- The table a file sets for the defaults of a type. -/
def defaultTable (L : State) (type : SandboxType) : Table :=
  match L.global (defaultsKey type) with
  | .table r => L.heap r
  | _ => []

/-- What a clean configuration is. -/
structure Clean (L : State) (cfg : Config.HsConfig) : Prop where
  globals : OnlyKeys (L.heap L.globals) mainOptions
  tables : ∀ type, ∃ r, L.global (defaultsKey type) = .table r
  keys : ∀ type, OnlyKeys (defaultTable L type) (tableOptions type)
  tableNumbers : ∀ type, ∀ o ∈ tableNumbers type,
    NumberOk uintMax (o.2 (cfg.defaults type)) ((defaultTable L type).get o.1)
  strings : ∀ name ∈ requiredStrings, IsString (L.global name)
  numbers : ∀ o ∈ mainNumbers, NumberOk o.2.1 (o.2.2 cfg) (L.global o.1)
  maxMessageSize : 1024 ≤ cfg.maxMessageSize
  analysisThreads : 1 ≤ cfg.analysisThreads ∧ cfg.analysisThreads ≤ hsMaxAnalysisThreads
  analysisUtilizationLimit : cfg.analysisUtilizationLimit ≤ 100
  outputLimits : ∀ type, (cfg.defaults type).outputLimit ≤ cfg.maxMessageSize

/-! ## What is read for a default table -/

/-- Stack index 1 when the table was pushed. -/
def source (L : State) (type : SandboxType) : Option Nat :=
  (L.push [L.global (defaultsKey type)]).tableAt .bottom

/-- The types the defaults of which are read before. -/
def earlier : SandboxType → List SandboxType
  | .input => []
  | .analysis => [.input]
  | .output => [.input, .analysis]

/-- Nothing is left of a table that was read before. -/
def readTable (L : State) (type : SandboxType) : Table :=
  match source L type with
  | some r => if ∃ t ∈ earlier type, source L t = some r then [] else L.heap r
  | none => []

/-- The default table has only options of the type, and its numbers are those that are read, or the built-in
defaults where nothing is. -/
structure Agrees (X : Env) (L : State) (type : SandboxType) : Prop where
  keys : OnlyKeys (defaultTable L type) (tableOptions type)
  numbers : ∀ o ∈ tableNumbers type,
    NumberOk uintMax
      (unsignedValue X (o.2 ((initConfig X).defaults type)) ((readTable L type).get o.1))
      ((defaultTable L type).get o.1)

def Admits (X : Env) (L : State) : Prop :=
  ∀ type, readTable L type = defaultTable L type ∨ Agrees X L type

/-- No value in a table is NaN. -/
def NoNaN (L : State) : Prop := ∀ r, ∀ e ∈ L.heap r, e.2 ≠ .number .nan

/-! ## One call -/

section

variable {X : Env} {α : Type} {L L' : State}

theorem numberOk_of_ok {max val n : Nat} {kind name : String} {v : Value}
    (h : readNumber X max kind name val v = .ok n) (hv : v ≠ .number .nan) : NumberOk max n v := by
  rcases readNumber_ok h with ⟨hnil, -⟩ | hnumber | ⟨hnan, -⟩
  · exact .inl hnil
  · exact .inr hnumber
  · exact absurd hnan hv

theorem get_ne_nan {t : Table} (h : ∀ e ∈ t, e.2 ≠ .number .nan) (name : String) :
    t.get name ≠ .number .nan := by
  unfold Table.get
  cases hfind : t.find? fun e => e.1 == Value.string name with
  | none => exact fun he => by cases he
  | some e => exact h e (List.mem_of_find?_eq_some hfind)

theorem isString_of_ok {name s : String} {v : Value} (h : readString X name none v = .ok s) :
    IsString v := by
  cases v with
  | string t => exact .inl ⟨t, rfl⟩
  | number n => exact .inr ⟨n, rfl⟩
  | nil => cases h
  | boolean b => cases h
  | table r => cases h
  | other => cases h

theorem pushTable_ok {key : String} {u : Unit} (h : pushTable key L = some (.ok u, L')) :
    (∃ r, L.global key = .table r) ∧ L' = L.push [L.global key] := by
  simp only [pushTable] at h
  split at h
  · rename_i r hr
    cases h
    exact ⟨⟨r, hr⟩, rfl⟩
  · cases h

theorem check_ok {idx : Index} {parent : Option String} {u : Unit}
    (h : checkForUnknownOptions idx parent L = some (.ok u, L')) :
    ∃ r, L.tableAt idx = some r ∧ L.heap r = [] ∧ L' = L := by
  unfold checkForUnknownOptions at h
  cases hr : L.tableAt idx with
  | none =>
    rw [hr] at h
    cases h
  | some r =>
    rw [hr] at h
    dsimp only at h
    split at h
    · cases h
      exact ⟨r, rfl, ‹_›, rfl⟩
    · cases h
    · cases h

theorem keeps_pushTable (name key : String) : M.Keeps name (pushTable key) := by
  intro L L' u h
  obtain ⟨-, rfl⟩ := pushTable_ok h
  exact ⟨rfl, rfl⟩

theorem keeps_check (name : String) (idx : Index) (parent : Option String) :
    M.Keeps name (checkForUnknownOptions idx parent) := by
  intro L L' u h
  obtain ⟨r, -, -, rfl⟩ := check_ok h
  exact ⟨rfl, rfl⟩

theorem keeps_removeTable {name key : String} (hne : name ≠ key) : M.Keeps name (removeTable key) := by
  intro L L' u h
  cases h
  exact ⟨rfl, State.global_remove_other { L with stack := L.stack.dropLast } hne⟩

/-! ## A default table -/

/-- What `load_sandbox_defaults` reads, and what it leaves. -/
structure TableRead (X : Env) (type : SandboxType) (base cfg : HsSandboxConfig) (L L' : State) (r : Nat) :
    Prop where
  source : source L type = some r
  table : ∃ rt, L.global (defaultsKey type) = .table rt
  ne_globals : r ≠ L.globals
  keys : OnlyKeys (L.heap r) (tableOptions type)
  numbers : ∀ o ∈ tableNumbers type, readUnsigned X o.1 (o.2 base) ((L.heap r).get o.1) = .ok (o.2 cfg)
  globals : L'.globals = L.globals
  stack : L'.stack = L.stack
  heap : L'.heap = Function.update (Function.update L.heap r []) L.globals
    ((L.heap L.globals).remove (defaultsKey type))

theorem OnlyKeys.of_removeAll {t : Table} {names options : List String} (h : t.removeAll names = [])
    (hsub : ∀ name ∈ names, name ∈ options) : OnlyKeys t options := by
  intro e he
  obtain ⟨name, hname, hkey⟩ := Table.key_of_removeAll h e he
  exact ⟨name, hsub name hname, hkey⟩

/-- After the options the table is empty, and its name is removed from the globals, which are another
table. -/
theorem tableRead_left {type : SandboxType} {base cfg : HsSandboxConfig} {L2 L3 : State} {r rt : Nat}
    {names : List String} {u v : Unit} (htable : L.global (defaultsKey type) = .table rt)
    (hr : source L type = some r)
    (hnumbers : ∀ o ∈ tableNumbers type,
      readUnsigned X o.1 (o.2 base) ((L.heap r).get o.1) = .ok (o.2 cfg))
    (hT : M.Took (L.push [L.global (defaultsKey type)]) L2 r names)
    (hsub : ∀ name ∈ names, name ∈ tableOptions type)
    (hcheck : checkForUnknownOptions .bottom (some (defaultsKey type)) L2 = some (.ok u, L3))
    (hremove : removeTable (defaultsKey type) L3 = some (.ok v, L')) :
    TableRead X type base cfg L L' r := by
  obtain ⟨r', hr', hnil, rfl⟩ := check_ok hcheck
  rw [hT.tableAt] at hr'
  obtain rfl : r = r' := Option.some.inj (hr.symm.trans hr')
  have hempty : (L.heap r).removeAll names = [] := by
    rw [← hnil, hT.table]
    rfl
  have hkey : defaultsKey type ∉ names := by
    intro hmem
    have hoption := hsub _ hmem
    revert hoption
    cases type <;> decide
  have hne : r ≠ L.globals := by
    rintro rfl
    -- the table itself would still be there
    have hget : ((L.heap L.globals).removeAll names).get (defaultsKey type) = .table rt := by
      rw [Table.get_removeAll _ hkey]
      exact htable
    rw [hempty] at hget
    cases hget
  have hheap : L3.heap = Function.update L.heap r [] := by
    rw [hT.heap]
    change Function.update L.heap r ((L.heap r).removeAll names) = _
    rw [hempty]
  have hglobals : L3.globals = L.globals := hT.globals
  cases hremove
  refine ⟨hr, ⟨rt, htable⟩, hne, .of_removeAll hempty hsub, hnumbers, hglobals, ?_, ?_⟩
  · change L3.stack.dropLast = L.stack
    rw [hT.stack]
    exact List.dropLast_concat
  · simp only [State.remove, hglobals, hheap, Function.update_of_ne (Ne.symm hne)]

theorem tableRead_of_ok (type : SandboxType) {base cfg : HsSandboxConfig}
    (h : loadSandboxDefaults X (defaultsKey type) base L = some (.ok cfg, L')) :
    ∃ r, TableRead X type base cfg L L' r := by
  obtain ⟨u, L1, hpush, h⟩ := M.bind_ok h
  obtain ⟨⟨rt, htable⟩, rfl⟩ := pushTable_ok hpush
  obtain ⟨outputLimit, _, h1, h⟩ := M.bind_ok h
  obtain ⟨r, hr, -, -⟩ := M.getItem_ok h1
  have hT := M.Took.refl (L.push [L.global (defaultsKey type)]) r
  obtain ⟨r1, hT⟩ := hT.getItem hr (by decide) h1
  obtain ⟨memoryLimit, _, h2, h⟩ := M.bind_ok h
  obtain ⟨r2, hT⟩ := hT.getItem hr (by decide) h2
  obtain ⟨instructionLimit, _, h3, h⟩ := M.bind_ok h
  obtain ⟨r3, hT⟩ := hT.getItem hr (by decide) h3
  obtain ⟨tickerInterval, _, h4, h⟩ := M.bind_ok h
  obtain ⟨r4, hT⟩ := hT.getItem hr (by decide) h4
  obtain ⟨preserveData, _, h5, h⟩ := M.bind_ok h
  obtain ⟨-, hT⟩ := hT.getItem hr (by decide) h5
  obtain ⟨restrictedHeaders, _, h6, h⟩ := M.bind_ok h
  obtain ⟨-, hT⟩ := hT.getItem hr (by decide) h6
  obtain ⟨shutdownTerminate, _, h7, h⟩ := M.bind_ok h
  obtain ⟨-, hT⟩ := hT.getItem hr (by decide) h7
  obtain ⟨⟨pmImLimit, teImLimit⟩, L8, h8, h⟩ := M.bind_ok h
  obtain ⟨⟨rmCpTerminate, readQueue⟩, L9, h9, h⟩ := M.bind_ok h
  obtain ⟨_, L10, hcheck, h⟩ := M.bind_ok h
  obtain ⟨_, L11, hremove, h⟩ := M.bind_ok h
  obtain ⟨rfl, rfl⟩ := M.pure_ok h
  have hcommon : ∀ o ∈ tableNumbers .input,
      readUnsigned X o.1 (o.2 base) ((L.heap r).get o.1) = .ok (o.2 { base with
        outputLimit, memoryLimit, instructionLimit, tickerInterval, preserveData, restrictedHeaders,
        shutdownTerminate, pmImLimit, teImLimit, rmCpTerminate, readQueue }) := by
    simp only [tableNumbers, List.append_nil, List.forall_mem_cons]
    exact ⟨r1, r2, r3, r4, fun _ hm => absurd hm List.not_mem_nil⟩
  cases type with
  | input =>
    obtain ⟨-, rfl⟩ := M.pure_ok h8
    obtain ⟨-, rfl⟩ := M.pure_ok h9
    exact ⟨r, tableRead_left htable hr hcommon hT (by decide) hcheck hremove⟩
  | analysis =>
    obtain ⟨pm, _, hpm, h8⟩ := M.bind_ok h8
    obtain ⟨r5, hT⟩ := hT.getItem hr (by decide) hpm
    obtain ⟨te, _, hte, h8⟩ := M.bind_ok h8
    obtain ⟨r6, hT⟩ := hT.getItem hr (by decide) hte
    obtain ⟨hlimits, rfl⟩ := M.pure_ok h8
    obtain ⟨-, rfl⟩ := M.pure_ok h9
    cases hlimits
    refine ⟨r, tableRead_left htable hr (List.forall_mem_append.mpr ⟨?_, ?_⟩) hT (by decide) hcheck
      hremove⟩
    · exact fun o ho => hcommon o (List.mem_append_left _ ho)
    · simp only [List.forall_mem_cons]
      exact ⟨r5, r6, fun _ hm => absurd hm List.not_mem_nil⟩
  | output =>
    obtain ⟨-, rfl⟩ := M.pure_ok h8
    obtain ⟨rm, _, hrm, h9⟩ := M.bind_ok h9
    obtain ⟨-, hT⟩ := hT.getItem hr (by decide) hrm
    obtain ⟨queue, _, hqueue, h9⟩ := M.bind_ok h9
    obtain ⟨-, hT⟩ := hT.getItem hr (by decide) hqueue
    obtain ⟨hoptions, rfl⟩ := M.pure_ok h9
    cases hoptions
    exact ⟨r, tableRead_left htable hr hcommon hT (by decide) hcheck hremove⟩

end

/-! ## The three tables -/

section

variable {X : Env} {type : SandboxType} {base cfg : HsSandboxConfig} {L L' : State} {r : Nat}

theorem defaultsKey_ne {other : SandboxType} (h : other ≠ type) : defaultsKey other ≠ defaultsKey type := by
  cases other <;> cases type <;> first | exact absurd rfl h | decide

/-- The names of the other tables are left. -/
theorem source_left (h : TableRead X type base cfg L L' r) (other : SandboxType) (hne : other ≠ type) :
    source L' other = source L other ∧ L'.global (defaultsKey other) = L.global (defaultsKey other) := by
  have hglobal : L'.global (defaultsKey other) = L.global (defaultsKey other) := by
    rw [State.global, h.globals, h.heap, Function.update_self, Table.get_remove_other _ (defaultsKey_ne hne)]
    rfl
  refine ⟨?_, hglobal⟩
  rw [source, source, hglobal, State.tableAt, State.tableAt, State.push, State.push, h.stack]

/-- Of the other tables only the one that was read is empty. -/
theorem heap_left (h : TableRead X type base cfg L L' r) {r' : Nat} (hne : r' ≠ L.globals) :
    L'.heap r' = if source L type = some r' then [] else L.heap r' := by
  rw [h.heap, Function.update_of_ne hne, Function.update_apply, h.source]
  by_cases hr : r' = r
  · rw [if_pos hr, if_pos (by rw [hr])]
  · rw [if_neg hr, if_neg fun hsome => hr (Option.some.inj hsome).symm]

/-- What the three calls read. -/
structure DefaultsRead (X : Env) (base cfg : Config.HsConfig) (L : State) (type : SandboxType) : Prop where
  table : ∃ rt, L.global (defaultsKey type) = .table rt
  ne_globals : source L type ≠ some L.globals
  keys : OnlyKeys (readTable L type) (tableOptions type)
  numbers : ∀ o ∈ tableNumbers type,
    readUnsigned X o.1 (o.2 (base.defaults type)) ((readTable L type).get o.1) =
      .ok (o.2 (cfg.defaults type))

theorem loadDefaults_read {base cfg : Config.HsConfig} (h : loadDefaults X base L = some (.ok cfg, L')) :
    (∀ type, DefaultsRead X base cfg L type) ∧
      (L.heap L.globals).removeAll ["output_defaults", "analysis_defaults", "input_defaults"] = [] ∧
      (∀ name, L'.global name = .nil) ∧ ∃ ipd apd opd, cfg = { base with ipd, apd, opd } := by
  obtain ⟨ipd, L1, h1, h⟩ := M.bind_ok h
  obtain ⟨apd, L2, h2, h⟩ := M.bind_ok h
  obtain ⟨opd, L3, h3, h⟩ := M.bind_ok h
  obtain ⟨_, _, hlimits, h⟩ := M.bind_ok h
  obtain ⟨_, _, hcheck, h⟩ := M.bind_ok h
  obtain ⟨rfl, rfl⟩ := M.pure_ok h
  obtain ⟨r1, hin⟩ := tableRead_of_ok .input h1
  obtain ⟨r2, han⟩ := tableRead_of_ok .analysis h2
  obtain ⟨r3, hout⟩ := tableRead_of_ok .output h3
  obtain ⟨-, rfl⟩ := M.checkThat_ok hlimits
  obtain ⟨r, hr, hnil, rfl⟩ := check_ok hcheck
  cases hr
  -- the second table as it was before the first call, the third as before the first two
  obtain ⟨hsrc2, hkey2⟩ := source_left hin .analysis (by decide)
  obtain ⟨hsrc3, hkey3⟩ := source_left hin .output (by decide)
  obtain ⟨hsrc3', hkey3'⟩ := source_left han .output (by decide)
  have hsource1 : source L .input = some r1 := hin.source
  have hsource2 : source L .analysis = some r2 := hsrc2.symm.trans han.source
  have hsource3 : source L .output = some r3 := hsrc3.symm.trans (hsrc3'.symm.trans hout.source)
  have hne2 : r2 ≠ L.globals := hin.globals ▸ han.ne_globals
  have hne3 : r3 ≠ L1.globals := han.globals ▸ hout.ne_globals
  have hne3' : r3 ≠ L.globals := hin.globals ▸ hne3
  have hread1 : readTable L .input = L.heap r1 := by
    simp [readTable, hsource1, earlier]
  have hread2 : readTable L .analysis = L1.heap r2 := by
    simp [readTable, hsource2, earlier, heap_left hin hne2]
  have hread3 : readTable L .output = L2.heap r3 := by
    rw [heap_left han hne3, hsrc2, heap_left hin hne3']
    simp only [readTable, hsource3, earlier, List.exists_mem_cons_iff, List.not_mem_nil, false_and,
      exists_false, or_false]
    by_cases ha : source L .analysis = some r3
    · rw [if_pos (.inr ha), if_pos ha]
    · simp only [ha, or_false, if_false]
  refine ⟨fun type => ?_, ?_, fun name => ?_, ipd, apd, opd, rfl⟩
  · cases type with
    | input =>
      refine ⟨hin.table, ?_, hread1 ▸ hin.keys, hread1 ▸ hin.numbers⟩
      rw [hsource1]
      exact fun he => hin.ne_globals (Option.some.inj he)
    | analysis =>
      refine ⟨hkey2 ▸ han.table, ?_, hread2 ▸ han.keys, hread2 ▸ han.numbers⟩
      rw [hsource2]
      exact fun he => hne2 (Option.some.inj he)
    | output =>
      refine ⟨hkey3 ▸ hkey3' ▸ hout.table, ?_, hread3 ▸ hout.keys, hread3 ▸ hout.numbers⟩
      rw [hsource3]
      exact fun he => hne3' (Option.some.inj he)
  · rw [hout.globals, hout.heap, Function.update_self, han.globals] at hnil
    rw [han.heap, Function.update_self, hin.globals, hin.heap, Function.update_self] at hnil
    exact hnil
  · rw [State.global, hnil]
    rfl

end

/-! ## The options the error codes of which are overwritten -/

section

variable {X : Env}

/-- The options read by calls the results of which are overwritten. -/
def ignored : List String := ["max_message_size", "analysis_utilization_limit", "analysis_threads"]

theorem ne_of_ignored {name other : String} (h : name ∈ ignored) (ho : other ∉ ignored) :
    name ≠ other :=
  fun he => ho (he ▸ h)

theorem keeps_loadSandboxDefaults {name : String} (h : name ∈ ignored) (type : SandboxType)
    (cfg : HsSandboxConfig) : M.Keeps name (loadSandboxDefaults X (defaultsKey type) cfg) := by
  have hkey : name ≠ defaultsKey type := ne_of_ignored h (by cases type <;> decide)
  refine .bind (keeps_pushTable _ _) fun _ => .bind (.getItem (ne_of_ignored h (by decide))) fun _ =>
    .bind (.getItem (ne_of_ignored h (by decide))) fun _ =>
    .bind (.getItem (ne_of_ignored h (by decide))) fun _ =>
    .bind (.getItem (ne_of_ignored h (by decide))) fun _ =>
    .bind (.getItem (ne_of_ignored h (by decide))) fun _ =>
    .bind (.getItem (ne_of_ignored h (by decide))) fun _ =>
    .bind (.getItem (ne_of_ignored h (by decide))) fun _ =>
    .bind ?_ fun _ => .bind ?_ fun _ => .bind (keeps_check _ _ _) fun _ =>
    .bind (keeps_removeTable hkey) fun _ => .pure _
  · unfold loadAnalysisDefaults
    split
    · exact .bind (.getItem (ne_of_ignored h (by decide))) fun _ =>
        .bind (.getItem (ne_of_ignored h (by decide))) fun _ => .pure _
    · exact .pure _
  · unfold loadOutputDefaults
    split
    · exact .bind (.getItem (ne_of_ignored h (by decide))) fun _ =>
        .bind (.getItem (ne_of_ignored h (by decide))) fun _ => .pure _
    · exact .pure _

theorem keeps_loadDefaults {name : String} (h : name ∈ ignored) (cfg : Config.HsConfig) :
    M.Keeps name (loadDefaults X cfg) :=
  .bind (keeps_loadSandboxDefaults h .input cfg.ipd) fun _ =>
    .bind (keeps_loadSandboxDefaults h .analysis cfg.apd) fun _ =>
    .bind (keeps_loadSandboxDefaults h .output cfg.opd) fun _ => .bind (.checkThat _ _) fun _ =>
    .bind (keeps_check _ _ _) fun _ => .pure _

theorem keeps_loadPaths {name : String} (h : name ∈ ignored) (hne : name ≠ "analysis_threads")
    (cfg : Config.HsConfig) : M.Keeps name (loadPaths X cfg) :=
  .bind (.getItem (ne_of_ignored h (by decide))) fun _ =>
    .bind (.getItem (ne_of_ignored h (by decide))) fun _ =>
    .bind (.getItem (ne_of_ignored h (by decide))) fun _ =>
    .bind (.getItem (ne_of_ignored h (by decide))) fun _ =>
    .bind (.getItem (ne_of_ignored h (by decide))) fun _ =>
    .bind (.getItem (ne_of_ignored h (by decide))) fun _ =>
    .bind (.getItem (ne_of_ignored h (by decide))) fun _ =>
    .bind (.attempt hne) fun _ => .bind (.checkThat _ _) fun _ => .pure _

end

/-! ## The main options -/

def sizeOptions : List String :=
  ["analysis_utilization_limit", "sandbox_load_path", "backpressure_disk_free", "backpressure",
    "output_size", "output_path", "max_message_size"]

def pathOptions : List String :=
  ["analysis_threads", "hostname", "analysis_lua_cpath", "analysis_lua_path", "io_lua_cpath", "io_lua_path",
    "sandbox_install_path", "sandbox_run_path"] ++ sizeOptions

section

variable {X : Env} {base cfg : Config.HsConfig} {L₀ L L' : State}

theorem readNumber_nil (X : Env) (max val : Nat) (kind name : String) :
    ∃ n, readNumber X max kind name val .nil = .ok n := ⟨val, rfl⟩

/-- What `loadSizes` accepts, when neither of the two options is left over. -/
structure SizesRead (cfg : Config.HsConfig) (L : State) : Prop where
  maxMessageSize : NumberOk uintMax cfg.maxMessageSize (L.global "max_message_size")
  outputSize : NumberOk uintMax cfg.outputSize (L.global "output_size")
  backpressure : NumberOk uintMax cfg.backpressure (L.global "backpressure")
  backpressureDf : NumberOk uintMax cfg.backpressureDf (L.global "backpressure_disk_free")
  analysisUtilizationLimit :
    NumberOk uint8Max cfg.analysisUtilizationLimit (L.global "analysis_utilization_limit")
  outputPath : IsString (L.global "output_path")
  size : 1024 ≤ cfg.maxMessageSize
  limit : cfg.analysisUtilizationLimit ≤ 100

theorem loadSizes_read (hnan : ∀ name, L₀.global name ≠ .number .nan)
    (h : loadSizes X base L₀ = some (.ok cfg, L))
    (hsize : L.global "max_message_size" = .nil)
    (hlimit : L.global "analysis_utilization_limit" = .nil) :
    SizesRead cfg L₀ ∧ M.Took L₀ L L₀.globals sizeOptions := by
  have hT := M.Took.refl L₀ L₀.globals
  obtain ⟨maxMessageSize, L1, h1, hrest⟩ := M.bind_ok h
  have hkeep : L.global "max_message_size" = L1.global "max_message_size" := by
    refine (M.Keeps.bind (.checkThat _ _) (fun _ => ?_) hrest).2
    exact .bind (.getItem (by decide)) fun _ => .bind (.getItem (by decide)) fun _ =>
      .bind (.getItem (by decide)) fun _ => .bind (.getItem (by decide)) fun _ =>
      .bind (.getItem (by decide)) fun _ => .bind (.attempt (by decide)) fun _ =>
      .bind (.checkThat _ _) fun _ => .pure _
  obtain ⟨r1, hT⟩ := hT.getItem rfl (by decide)
    (M.attempt_of_gone (readNumber_nil _ _ _ _ _) (hkeep ▸ hsize) h1)
  obtain ⟨_, _, hsize', hrest⟩ := M.bind_ok hrest
  obtain ⟨hmin, rfl⟩ := M.checkThat_ok hsize'
  obtain ⟨outputPath, _, h2, hrest⟩ := M.bind_ok hrest
  obtain ⟨r2, hT⟩ := hT.getItem rfl (by decide) h2
  obtain ⟨outputSize, _, h3, hrest⟩ := M.bind_ok hrest
  obtain ⟨r3, hT⟩ := hT.getItem rfl (by decide) h3
  obtain ⟨backpressure, _, h4, hrest⟩ := M.bind_ok hrest
  obtain ⟨r4, hT⟩ := hT.getItem rfl (by decide) h4
  obtain ⟨backpressureDf, _, h5, hrest⟩ := M.bind_ok hrest
  obtain ⟨r5, hT⟩ := hT.getItem rfl (by decide) h5
  obtain ⟨loadPath, _, h6, hrest⟩ := M.bind_ok hrest
  obtain ⟨-, hT⟩ := hT.getItem rfl (by decide) h6
  obtain ⟨limit, L7, h7, hrest⟩ := M.bind_ok hrest
  obtain ⟨_, _, hlimit', hrest⟩ := M.bind_ok hrest
  obtain ⟨hmax, rfl⟩ := M.checkThat_ok hlimit'
  obtain ⟨rfl, rfl⟩ := M.pure_ok hrest
  obtain ⟨r7, hT⟩ := hT.getItem rfl (by decide)
    (M.attempt_of_gone (readNumber_nil _ _ _ _ _) hlimit h7)
  exact ⟨⟨numberOk_of_ok r1 (hnan _), numberOk_of_ok r3 (hnan _), numberOk_of_ok r4 (hnan _),
    numberOk_of_ok r5 (hnan _), numberOk_of_ok r7 (hnan _), isString_of_ok r2, of_decide_eq_true hmin,
    of_decide_eq_true hmax⟩, hT⟩

/-- What `loadPaths` accepts when the number of threads is not left over. -/
structure PathsRead (cfg : Config.HsConfig) (L : State) : Prop where
  runPath : IsString (L.global "sandbox_run_path")
  ioLuaPath : IsString (L.global "io_lua_path")
  ioLuaCpath : IsString (L.global "io_lua_cpath")
  analysisLuaPath : IsString (L.global "analysis_lua_path")
  analysisLuaCpath : IsString (L.global "analysis_lua_cpath")
  analysisThreads : NumberOk uint8Max cfg.analysisThreads (L.global "analysis_threads")
  range : 1 ≤ cfg.analysisThreads ∧ cfg.analysisThreads ≤ hsMaxAnalysisThreads

theorem loadPaths_read (hnan : ∀ name, L₀.global name ≠ .number .nan)
    (hT : M.Took L₀ L L₀.globals sizeOptions) (h : loadPaths X base L = some (.ok cfg, L'))
    (hthreads : L'.global "analysis_threads" = .nil) :
    PathsRead cfg L₀ ∧ M.Took L₀ L' L₀.globals pathOptions := by
  obtain ⟨runPath, _, h1, hrest⟩ := M.bind_ok h
  obtain ⟨r1, hT⟩ := hT.getItem rfl (by decide) h1
  obtain ⟨installPath, _, h2, hrest⟩ := M.bind_ok hrest
  obtain ⟨-, hT⟩ := hT.getItem rfl (by decide) h2
  obtain ⟨ioLuaPath, _, h3, hrest⟩ := M.bind_ok hrest
  obtain ⟨r3, hT⟩ := hT.getItem rfl (by decide) h3
  obtain ⟨ioLuaCpath, _, h4, hrest⟩ := M.bind_ok hrest
  obtain ⟨r4, hT⟩ := hT.getItem rfl (by decide) h4
  obtain ⟨analysisLuaPath, _, h5, hrest⟩ := M.bind_ok hrest
  obtain ⟨r5, hT⟩ := hT.getItem rfl (by decide) h5
  obtain ⟨analysisLuaCpath, _, h6, hrest⟩ := M.bind_ok hrest
  obtain ⟨r6, hT⟩ := hT.getItem rfl (by decide) h6
  obtain ⟨hostname, _, h7, hrest⟩ := M.bind_ok hrest
  obtain ⟨-, hT⟩ := hT.getItem rfl (by decide) h7
  obtain ⟨threads, L8, h8, hrest⟩ := M.bind_ok hrest
  obtain ⟨_, _, hcheck, hrest⟩ := M.bind_ok hrest
  obtain ⟨hrange, rfl⟩ := M.checkThat_ok hcheck
  obtain ⟨rfl, rfl⟩ := M.pure_ok hrest
  obtain ⟨r8, hT⟩ := hT.getItem rfl (by decide)
    (M.attempt_of_gone (readNumber_nil _ _ _ _ _) hthreads h8)
  exact ⟨⟨isString_of_ok r1, isString_of_ok r3, isString_of_ok r4, isString_of_ok r5, isString_of_ok r6,
    numberOk_of_ok r8 (hnan _), of_decide_eq_true hrange⟩, hT⟩

/-- The other options keep the fields of the sizes, and all of them the defaults. -/
theorem loadSizes_defaults (h : loadSizes X base L = some (.ok cfg, L')) (type : SandboxType) :
    cfg.defaults type = base.defaults type := by
  refine M.Ensures.bind (P := fun c => c.defaults type = base.defaults type) (fun _ => ?_) h
  repeat refine M.Ensures.bind fun _ => ?_
  exact M.Ensures.pure (by cases type <;> rfl)

def sizes (cfg : Config.HsConfig) : Nat × Nat × Nat × Nat × Nat :=
  (cfg.maxMessageSize, cfg.outputSize, cfg.backpressure, cfg.backpressureDf, cfg.analysisUtilizationLimit)

theorem loadPaths_keeps (h : loadPaths X base L = some (.ok cfg, L')) :
    sizes cfg = sizes base ∧ ∀ type, cfg.defaults type = base.defaults type := by
  refine M.Ensures.bind (P := fun c => sizes c = sizes base ∧ ∀ type, c.defaults type = base.defaults type)
    (fun _ => ?_) h
  repeat refine M.Ensures.bind fun _ => ?_
  exact M.Ensures.pure ⟨rfl, fun type => by cases type <;> rfl⟩

end

/-! ## What an accepted file is -/

section

variable {X : Env} {cfg : Config.HsConfig} {L₀ L : State}

/-- The tables are as they were when the main options have been read. -/
theorem readTable_took (hT : M.Took L₀ L L₀.globals pathOptions) (type : SandboxType)
    (hne : source L type ≠ some L.globals) :
    readTable L type = readTable L₀ type ∧
      L.global (defaultsKey type) = L₀.global (defaultsKey type) := by
  have hglobal : ∀ t, L.global (defaultsKey t) = L₀.global (defaultsKey t) := by
    intro t
    rw [State.global, hT.globals, hT.table, Table.get_removeAll _ (by cases t <;> decide)]
    rfl
  have hsource : ∀ t, source L t = source L₀ t := by
    intro t
    rw [source, source, hglobal t, State.tableAt, State.tableAt, State.push, State.push, hT.stack]
  refine ⟨?_, hglobal type⟩
  rw [hsource type, hT.globals] at hne
  simp only [readTable, hsource]
  cases hr : source L₀ type with
  | none => rfl
  | some r =>
    have hheap : L.heap r = L₀.heap r := by
      rw [hT.heap, Function.update_of_ne fun he => hne (by rw [hr, he])]
    simp only [hheap]

/-- What holds of every accepted file. -/
structure Accepted (X : Env) (L : State) (cfg : Config.HsConfig) : Prop where
  globals : OnlyKeys (L.heap L.globals) mainOptions
  tables : ∀ type, ∃ r, L.global (defaultsKey type) = .table r
  keys : ∀ type, OnlyKeys (readTable L type) (tableOptions type)
  tableNumbers : ∀ type, ∀ o ∈ tableNumbers type,
    readUnsigned X o.1 (o.2 ((initConfig X).defaults type)) ((readTable L type).get o.1) =
      .ok (o.2 (cfg.defaults type))
  strings : ∀ name ∈ requiredStrings, IsString (L.global name)
  numbers : ∀ o ∈ mainNumbers, NumberOk o.2.1 (o.2.2 cfg) (L.global o.1)
  maxMessageSize : 1024 ≤ cfg.maxMessageSize
  analysisThreads : 1 ≤ cfg.analysisThreads ∧ cfg.analysisThreads ≤ hsMaxAnalysisThreads
  analysisUtilizationLimit : cfg.analysisUtilizationLimit ≤ 100
  outputLimits : ∀ type, (cfg.defaults type).outputLimit ≤ cfg.maxMessageSize

theorem accepted_of_ok (hnan : NoNaN L) (h : hsLoadConfig X (.ok L) = some (.ok cfg)) :
    Accepted X L cfg := by
  obtain ⟨_, L', hL, h⟩ := finish_ok h
  cases hL
  obtain ⟨cfg1, L1, hsizes, h⟩ := M.bind_ok h
  obtain ⟨cfg2, L2, hpaths, hdefaults⟩ := M.bind_ok h
  obtain ⟨hread, hswept, hgone, ipd, apd, opd, hcfg⟩ := loadDefaults_read hdefaults
  obtain ⟨hsize, hlimits⟩ := loadDefaults_ok hdefaults
  rw [← hsize] at hlimits
  -- an option the error of which was ignored would be left over
  have hleft : ∀ name ∈ ignored, L2.global name = .nil := fun name hname =>
    (keeps_loadDefaults hname cfg2 hdefaults).2.symm.trans (hgone name)
  have hnan' : ∀ name, L.global name ≠ .number .nan := get_ne_nan (hnan L.globals)
  have hkept : ∀ name ∈ ignored, name ≠ "analysis_threads" → L2.global name = L1.global name :=
    fun name hname hne => (keeps_loadPaths hname hne cfg1 hpaths).2
  obtain ⟨hS, hT1⟩ := loadSizes_read hnan' hsizes
    ((hkept _ (by decide) (by decide)).symm.trans (hleft _ (by decide)))
    ((hkept _ (by decide) (by decide)).symm.trans (hleft _ (by decide)))
  obtain ⟨hP, hT2⟩ := loadPaths_read hnan' hT1 hpaths (hleft _ (by decide))
  obtain ⟨hsame, hbase⟩ := loadPaths_keeps hpaths
  simp only [sizes, Prod.mk.injEq] at hsame
  obtain ⟨s1, s2, s3, s4, s5⟩ := hsame
  have htable := fun type => readTable_took hT2 type (hread type).ne_globals
  refine ⟨?_, fun type => ?_, fun type => ?_, fun type o ho => ?_, ?_, ?_, ?_, ?_, ?_, hlimits⟩
  · rw [hT2.globals, hT2.table, ← Table.removeAll_append] at hswept
    exact .of_removeAll hswept (by decide)
  · rw [← (htable type).2]
    exact (hread type).table
  · rw [← (htable type).1]
    exact (hread type).keys
  · have hnumber := (hread type).numbers o ho
    rwa [(htable type).1, hbase type, loadSizes_defaults hsizes type] at hnumber
  · simp only [requiredStrings, List.forall_mem_cons]
    exact ⟨hS.outputPath, hP.runPath, hP.ioLuaPath, hP.ioLuaCpath, hP.analysisLuaPath, hP.analysisLuaCpath,
      fun _ hm => absurd hm List.not_mem_nil⟩
  · rw [hcfg]
    simp only [mainNumbers, List.forall_mem_cons]
    exact ⟨s1 ▸ hS.maxMessageSize, s2 ▸ hS.outputSize, s3 ▸ hS.backpressure, s4 ▸ hS.backpressureDf,
      s5 ▸ hS.analysisUtilizationLimit, hP.analysisThreads, fun _ hm => absurd hm List.not_mem_nil⟩
  · rw [hcfg]
    exact s1 ▸ hS.size
  · rw [hcfg]
    exact hP.range
  · rw [hcfg]
    exact s5 ▸ hS.limit

theorem defaultTable_ne_nan (hnan : NoNaN L) (type : SandboxType) (name : String) :
    (defaultTable L type).get name ≠ .number .nan := by
  refine get_ne_nan (fun e he => ?_) name
  unfold defaultTable at he
  split at he
  · exact hnan _ e he
  · exact absurd he List.not_mem_nil

/-- What is stored of a default table agrees with the table where that is read, and where it agrees with what
is read instead. -/
theorem clean_of_accepted (hA : Accepted X L cfg) (hnan : NoNaN L) (h : Admits X L) : Clean L cfg := by
  have hstored : ∀ type, ∀ o ∈ tableNumbers type,
      unsignedValue X (o.2 ((initConfig X).defaults type)) ((readTable L type).get o.1) =
        o.2 (cfg.defaults type) :=
    fun type o ho => unsignedValue_of_ok (hA.tableNumbers type o ho)
  refine ⟨hA.globals, hA.tables, fun type => ?_, fun type o ho => ?_, hA.strings, hA.numbers,
    hA.maxMessageSize, hA.analysisThreads, hA.analysisUtilizationLimit, hA.outputLimits⟩
  · rcases h type with hsame | hagrees
    · rw [← hsame]
      exact hA.keys type
    · exact hagrees.keys
  · rcases h type with hsame | hagrees
    · have hread := hA.tableNumbers type o ho
      rw [hsame] at hread
      exact numberOk_of_ok hread (defaultTable_ne_nan hnan type o.1)
    · rw [← hstored type o ho]
      exact hagrees.numbers o ho

theorem admits_of_accepted (hA : Accepted X L cfg) (h : Clean L cfg) : Admits X L := by
  intro type
  refine .inr ⟨h.keys type, fun o ho => ?_⟩
  rw [unsignedValue_of_ok (hA.tableNumbers type o ho)]
  exact h.tableNumbers type o ho

end

/-- A configuration that is accepted is clean exactly when each default table is the one that is read for it,
or agrees with that. -/
theorem clean_iff (X : Env) (L : State) (cfg : Config.HsConfig) (hnan : NoNaN L)
    (h : hsLoadConfig X (.ok L) = some (.ok cfg)) : Clean L cfg ↔ Admits X L :=
  ⟨admits_of_accepted (accepted_of_ok hnan h), clean_of_accepted (accepted_of_ok hnan h) hnan⟩

/-- A main file with the required options; the default tables for input and analysis are `defaults` and
another one. -/
def tablesMain (defaults : Table) (analysis : Nat) : State where
  heap
    | 0 =>
      [(.string "output_path", .string "output"), (.string "sandbox_run_path", .string "run"),
        (.string "io_lua_path", .string "io/?.lua"), (.string "io_lua_cpath", .string "io/?.so"),
        (.string "analysis_lua_path", .string "analysis/?.lua"),
        (.string "analysis_lua_cpath", .string "analysis/?.so"),
        (.string "input_defaults", .table 1), (.string "analysis_defaults", .table analysis),
        (.string "output_defaults", .table 3)]
    | 1 => defaults
    | _ => []
  globals := 0
  stack := []

def smallLimit : Table := [(.string "output_limit", .number (.finite 1024))]

theorem tablesMain_noNaN (analysis : Nat) : NoNaN (tablesMain smallLimit analysis) := by
  intro r e he
  match r with
  | 0 =>
    simp only [tablesMain, List.mem_cons, List.not_mem_nil, or_false] at he
    rcases he with rfl | rfl | rfl | rfl | rfl | rfl | rfl | rfl | rfl <;> exact fun hv => by cases hv
  | 1 =>
    rw [List.mem_singleton.mp he]
    exact fun hv => by cases hv
  | _ + 2 => exact absurd he List.not_mem_nil

/-- The file is accepted. -/
theorem tablesMain_loaded (analysis limit : Nat)
    (h : (((hsLoadConfig plainEnv (.ok (tablesMain smallLimit analysis))).bind Except.toOption).map
      fun cfg => cfg.apd.outputLimit) = some limit) :
    ∃ cfg, hsLoadConfig plainEnv (.ok (tablesMain smallLimit analysis)) = some (.ok cfg) ∧
      cfg.apd.outputLimit = limit := by
  obtain ⟨cfg, hcfg, hlimit⟩ := Option.map_eq_some_iff.mp h
  exact ⟨cfg, ok_of_toOption hcfg, hlimit⟩

/-- Three tables. -/
theorem clean_iff_apart :
    ∃ cfg, hsLoadConfig plainEnv (.ok (tablesMain smallLimit 2)) = some (.ok cfg) ∧
      Clean (tablesMain smallLimit 2) cfg := by
  obtain ⟨cfg, hcfg, -⟩ := tablesMain_loaded 2 65536 (by decide +kernel)
  refine ⟨cfg, hcfg, (clean_iff plainEnv _ cfg (tablesMain_noNaN 2) hcfg).mpr fun type => .inl ?_⟩
  cases type <;> decide +kernel

/-- One table for input and analysis: its limit is read for input only. -/
theorem clean_fails :
    ¬ ∀ (X : Env) (L : State) (cfg : Config.HsConfig), NoNaN L →
      hsLoadConfig X (.ok L) = some (.ok cfg) → Clean L cfg := by
  intro h
  obtain ⟨cfg, hcfg, hlimit⟩ := tablesMain_loaded 1 65536 (by decide +kernel)
  have hclean := h plainEnv _ cfg (tablesMain_noNaN 1) hcfg
  have hnumber := hclean.tableNumbers .analysis ("output_limit", fun c => c.outputLimit) (by simp [tableNumbers])
  have hset : (defaultTable (tablesMain smallLimit 1) .analysis).get "output_limit" =
      .number (.finite 1024) := by decide +kernel
  have hfield : (cfg.defaults .analysis).outputLimit = 65536 := hlimit
  simp only [hset, hfield] at hnumber
  rcases hnumber with hnil | ⟨q, hq, -, -, hval⟩
  · cases hnil
  · cases hq
    revert hval
    decide +kernel

end MainOptions

end Hindsight
