import Hindsight.LoadConfig
import Hindsight.Lib.Run

/-!
# Hindsight.DynamicLoad

The load directory of the input or of the output plugins. Files are put into it at any time, and each queues an event
that the main thread handles in its turn: Lua code and configurations move to the run directory, and plugins are
stopped and started. New Lua code moves the configurations of the plugins that run it back into the load
directory, which queues them again. Plugins may terminate meanwhile.

No rename and no deletion fails, all paths fit, and no name of a configuration can be read out of the middle of
another (`Naming`). Which sandboxes can be created, and which input threads can be joined, is left to the events. A
character of a name stands for one byte.

* `Fresh`: a plugin runs the configuration and the Lua code that are in the run directory now.
* `Settled`: so does every plugin whose configuration is not waiting in the queue.
* `restart_spec`: what the loop over the plugins does to the directories.
* `load_settles`: every run; and the queue can always be worked off, after which all plugins are fresh.
-/

namespace Hindsight

namespace DynamicLoad

open Files LoadConfig
open AnalysisReload (hsExtLen hsCfgExt)
open PluginList (hsInputDir hsOutputDir hsOffExt nameMatches removeFirst Distinct shifts)

def hsLuaExt : List Char := ".lua".toList

/-- The `filename` option has the extension of Lua code. -/
abbrev LuaName := { fn : List Char // hsHasExt fn hsLuaExt = true }

/-- The input and the output plugins. -/
inductive Kind where
  | input
  | output
  deriving DecidableEq, Repr

def Kind.dir : Kind → List Char
  | .input => hsInputDir
  | .output => hsOutputDir

/-- The name without its extension. -/
def baseOf (fn : List Char) : List Char := fn.take (fn.length - hsExtLen)

/-- A plugin with the texts it was created from. `lua` is `none` when the code was not in the run directory;
`stopping` is set when its thread was told to end and could not be joined. -/
structure Plugin where
  base : List Char
  cfg : List UInt8
  lua : Option (LuaName × List UInt8)
  stopping : Bool

namespace Plugin

/-- `sbc->cfg_name`. -/
def name (k : Kind) (p : Plugin) : List Char := k.dir ++ '.' :: p.base

def cfgFile (p : Plugin) : List Char := p.base ++ hsCfgExt

/-- `lsb_heka_get_lua_file` is the file `fn` of the run directory. -/
def runs (p : Plugin) (fn : List Char) : Bool :=
  match p.lua with
  | some (lua, _) => lua.val == fn
  | none => false

end Plugin

/-- The directories, the names in the queue of `inotify`, and the list of the plugins. -/
structure State where
  disk : FileSystem
  events : List (List Char)
  plugins : List (Option Plugin)

def noFail : Call Path → Bool := fun _ => false

section

variable (lpath rpath : List Char)

def fitsBoth (fn : List Char) : Bool := fits lpath fn && fits rpath fn

/-! ## Lua code -/

/-- A plugin that runs new code: its configuration goes back to the load directory, unless one is there. -/
def moveCfg (p : Plugin) (s : State) : State :=
  if hsFileExists s.disk (.load, p.cfgFile) then s
  else
    match rename noFail (.run, p.cfgFile) (.load, p.cfgFile) s.disk with
    | some d => { s with disk := d, events := s.events ++ [p.cfgFile] }
    | none => s

/-- The loop of `process_lua`; `none` when the process ends because a path is too long. -/
def restartPlugins (fn : List Char) : List (Option Plugin) → State → Option State
  | [], s => some s
  | none :: ps, s => restartPlugins fn ps s
  | some p :: ps, s =>
    if p.runs fn then
      if fitsBoth lpath rpath p.cfgFile then restartPlugins fn ps (moveCfg p s) else none
    else restartPlugins fn ps s

def processLua (fn : List Char) (s : State) : Option State :=
  if fitsBoth lpath rpath fn then
    match rename noFail (.load, fn) (.run, fn) s.disk with
    | some d => restartPlugins lpath rpath fn s.plugins { s with disk := d }
    | none => some s
  else none

/-! ## Configurations -/

/-- `remove_plugin`. -/
def removePlugin (k : Kind) (joins : Bool) (p : Plugin) : Option Plugin :=
  match k with
  | .output => none
  | .input => if joins then none else some { p with stopping := true }

def matching (k : Kind) (fn : List Char) (p : Plugin) : Bool := nameMatches k.dir fn (p.name k)

def removeFromPlugins (k : Kind) (joins : Bool) (fn : List Char) :
    List (Option Plugin) → List (Option Plugin) :=
  removeFirst (matching k fn) (removePlugin k joins)

/-- What `remove_from_input_plugins` returns; the output plugins are always joined. -/
def removed (k : Kind) (joins : Bool) (fn : List Char) (ps : List (Option Plugin)) : Bool :=
  match k with
  | .output => true
  | .input => joins || !ps.any fun slot => slot.any (matching k fn)

def addToPlugins (p : Plugin) : List (Option Plugin) → List (Option Plugin)
  | [] => [some p]
  | none :: ps => some p :: ps
  | some q :: ps => some q :: addToPlugins p ps

variable (filename : List UInt8 → Option LuaName)

/-- The text of a file in the run directory. -/
def readRun (d : FileSystem) (fn : List Char) : Option (List UInt8) :=
  match d (.run, fn) with
  | some f => if f.readable then some f.content else none
  | none => none

/-- `hs_load_sandbox_config` and `create_input_plugin` or `create_output_plugin`. `filename` is the option of a
text that loads; the code is looked for in the run directory first. -/
def createPlugin (created : Bool) (d : FileSystem) (fn : List Char) : Option Plugin :=
  if hsHasExt fn hsCfgExt && created then
    match readRun d fn with
    | some text =>
      match filename text with
      | some lua =>
        some { base := baseOf fn, cfg := text,
               lua := (readRun d lua.val).map fun code => (lua, code), stopping := false }
      | none => none
    | none => none
  else none

def startPlugin (created : Bool) (fn : List Char) (s : State) : State :=
  match createPlugin filename created s.disk fn with
  | some p => { s with plugins := addToPlugins p s.plugins }
  | none => s

/-- `hs_load_input_dynamic` and `hs_load_output_dynamic`. -/
def hsLoadDynamic (k : Kind) (joins created : Bool) (fn : List Char) (s : State) : Option State :=
  if hsHasExt fn hsLuaExt then processLua lpath rpath fn s
  else
    match hsProcessLoadCfg noFail lpath rpath fn s.disk with
    | none => none
    | some (ret, d) =>
      let stopped := removeFromPlugins k joins fn s.plugins
      if ret = 0 then some { s with disk := d, plugins := stopped }
      else if ret = 1 then
        if removed k joins fn s.plugins then
          some (startPlugin filename created fn { s with disk := d, plugins := stopped })
        else some { s with disk := d, plugins := stopped }
      else some { s with disk := d }

/-! ## The machine -/

def isConfig (fn : List Char) : Bool := hsHasExt fn hsCfgExt || hsHasExt fn hsOffExt

/-- The names of the configurations, none of which the removals take for another. -/
structure Naming where
  bases : List (List Char)
  apart : ∀ a ∈ bases, ∀ b ∈ bases, a ∈ shifts b hsCfgExt ++ shifts b hsOffExt → a = b

variable (names : Naming)

/-- A file name as it comes into the directories. -/
structure Plain (fn : List Char) : Prop where
  short : fitsBoth lpath rpath fn = true
  known : isConfig fn = true → baseOf fn ∈ names.bases

instance (fn : List Char) : Decidable (Plain lpath rpath names fn) :=
  decidable_of_iff
    (fitsBoth lpath rpath fn = true ∧ (isConfig fn = true → names.bases.contains (baseOf fn) = true))
    ⟨fun h => ⟨h.1, fun hconfig => List.contains_iff_mem.mp (h.2 hconfig)⟩,
      fun h => ⟨h.short, fun hconfig => List.contains_iff_mem.mpr (h.known hconfig)⟩⟩

inductive Event where
  | deliver (fn : List Char) (f : File)
  | handle (joins created : Bool)
  | terminate (slot : Nat) (err : Option (List UInt8))

def step (k : Kind) (s : State) : Event → Option State
  | .deliver fn f =>
    if Plain lpath rpath names fn then
      some { s with
        disk := Function.update s.disk (.load, fn) (some f)
        events := s.events ++ [fn] }
    else none
  | .handle joins created =>
    match s.events with
    | [] => none
    | fn :: rest => hsLoadDynamic lpath rpath filename k joins created fn { s with events := rest }
  | .terminate slot err =>
    match s.plugins[slot]? with
    | some (some p) =>
      some { s with
        disk := match err with
          | some text => Function.update s.disk (.run, p.base ++ hsErrExt) (some ⟨text, true⟩)
          | none => s.disk
        plugins := s.plugins.set slot none }
    | _ => none

/-- A run directory at the start of the process. -/
structure RunDir where
  files : List (List Char × File)
  nodup : (files.map Prod.fst).Nodup
  plain : ∀ f ∈ files, Plain lpath rpath names f.1

/-- `hs_prune_err` leaves the `.err` files out. The load directory is empty. -/
def RunDir.disk (r : RunDir lpath rpath names) : FileSystem
  | (.run, fn) => if hsHasExt fn hsErrExt then none else (r.files.find? fun f => f.1 == fn).map Prod.snd
  | (.load, _) => none

/-- `hs_load_input_startup` and `hs_load_output_startup`. -/
def start (r : RunDir lpath rpath names) (created : List Char → Bool) : State :=
  (r.files.map Prod.fst).foldl (fun s fn => startPlugin filename (created fn) fn s)
    ⟨r.disk, [], []⟩

end

/-! ## What is to hold -/

/-- The texts the plugin was created from are those in the run directory. -/
structure Fresh (d : FileSystem) (p : Plugin) : Prop where
  cfg : ∃ f, d (.run, p.cfgFile) = some f ∧ f.content = p.cfg
  lua : ∀ fn code, p.lua = some (fn, code) → ∃ f, d (.run, fn.val) = some f ∧ f.content = code

/-- A plugin that is not being stopped is fresh, or its configuration is in the queue. -/
def Settled (s : State) : Prop :=
  ∀ p, some p ∈ s.plugins → p.stopping = false → p.cfgFile ∉ s.events → Fresh s.disk p

section

variable {lpath rpath : List Char} {names : Naming} {filename : List UInt8 → Option LuaName}
  {k : Kind} {s s' : State} {d d' : FileSystem} {fn : List Char} {p q : Plugin}

/-! ## Names -/

theorem hasExt_append {b ext : List Char} (hb : b ≠ []) : hsHasExt (b ++ ext) ext = true := by
  have hpos := List.length_pos_of_ne_nil hb
  simp [hsHasExt, hpos]

theorem length_lua : hsLuaExt.length = hsExtLen := by decide

theorem length_cfg : hsCfgExt.length = hsExtLen := by decide

theorem length_off : hsOffExt.length = hsExtLen := by decide

theorem length_err : hsErrExt.length = hsExtLen := by decide

theorem cfg_ne_lua : hsCfgExt ≠ hsLuaExt := by decide

theorem off_ne_lua : hsOffExt ≠ hsLuaExt := by decide

theorem err_ne_lua : hsErrExt ≠ hsLuaExt := by decide

theorem cfg_ne_off : hsCfgExt ≠ hsOffExt := by decide

theorem cfg_ne_err : hsCfgExt ≠ hsErrExt := by decide

theorem off_ne_errExt : hsOffExt ≠ hsErrExt := by decide

/-- The extensions are equally long, so a name has one of them. -/
theorem hasExt_unique {ext ext' : List Char} (hlen : ext.length = hsExtLen)
    (hlen' : ext'.length = hsExtLen) (h : hsHasExt fn ext = true) (h' : hsHasExt fn ext' = true) :
    ext = ext' := by
  simp only [hsHasExt, Bool.and_eq_true, beq_iff_eq] at h h'
  rw [← h.2, ← h'.2, hlen, hlen']

/-- A configuration is no Lua code. -/
theorem cfg_not_lua (h : hsHasExt fn hsCfgExt = true) (h' : hsHasExt fn hsLuaExt = true) : False :=
  cfg_ne_lua (hasExt_unique length_cfg length_lua h h')

theorem not_hasExt {b ext ext' : List Char} (hlen : ext.length = hsExtLen)
    (hlen' : ext'.length = hsExtLen) (hne : ext ≠ ext') : hsHasExt (b ++ ext) ext' = false := by
  have hsub : (b ++ ext).length - ext'.length = b.length := by
    rw [List.length_append, hlen, hlen']
    exact Nat.add_sub_cancel _ _
  simp only [hsHasExt, hsub, List.drop_left, beq_eq_false_iff_ne.mpr hne, Bool.and_false]

theorem baseOf_append (b : List Char) {ext : List Char} (hext : ext.length = hsExtLen) :
    baseOf (b ++ ext) = b := by
  rw [baseOf, List.length_append, hext, Nat.add_sub_cancel, List.take_left]

theorem baseOf_cfg (h : hsHasExt fn hsCfgExt = true) : baseOf fn ++ hsCfgExt = fn :=
  withExt_self length_cfg h

theorem baseOf_off (h : hsHasExt fn hsOffExt = true) : baseOf fn ++ hsOffExt = fn :=
  withExt_self length_off h

theorem append_ext_ne {b b' ext ext' : List Char} (hlen : ext.length = hsExtLen)
    (hlen' : ext'.length = hsExtLen) (hne : ext ≠ ext') : b ++ ext ≠ b' ++ ext' :=
  fun h => hne (List.append_inj' h (hlen.trans hlen'.symm)).2

/-- The removals find a plugin by its own name only. -/
theorem nameMatches_base {dir base : List Char} (hfn : isConfig fn = true)
    (hbase : baseOf fn ∈ names.bases) (hp : base ∈ names.bases) :
    nameMatches dir fn (dir ++ '.' :: base) = true ↔ base = baseOf fn := by
  obtain ⟨ext, hext, heq⟩ : ∃ ext, (ext = hsCfgExt ∨ ext = hsOffExt) ∧ baseOf fn ++ ext = fn := by
    rcases Bool.or_eq_true_iff.mp hfn with h | h
    · exact ⟨_, .inl rfl, baseOf_cfg h⟩
    · exact ⟨_, .inr rfl, baseOf_off h⟩
  have hname : PluginList.baseName dir (dir ++ '.' :: base) = base := by
    simp [PluginList.baseName]
  rw [← heq, PluginList.nameMatches_iff (PluginList.length_ext hext), hname, heq]
  refine ⟨fun h => h.elim id fun hs => ?_, .inl⟩
  refine names.apart _ hp _ hbase (List.mem_append.mpr ?_)
  rcases hext with rfl | rfl
  · exact .inl hs
  · exact .inr hs

theorem matching_iff (hfn : isConfig fn = true) (hbase : baseOf fn ∈ names.bases)
    (hp : p.base ∈ names.bases) : matching k fn p = true ↔ p.base = baseOf fn :=
  nameMatches_base hfn hbase hp

/-! ## The loop over the plugins -/

theorem rename_noFail {a b : Path} (hne : a ≠ b) :
    rename noFail a b d = (d a).map fun f =>
      Function.update (Function.update d a none) b (some f) := by
  cases h : d a with
  | none => simp [rename, h]
  | some f => simp [rename, h, noFail, hne]

/-- Configurations of `moved` may have gone from the run directory to the load directory and its queue. -/
structure Moves (moved : Set (List Char)) (s s' : State) : Prop where
  plugins : s'.plugins = s.plugins
  load : ∀ x, s.disk (.load, x) ≠ none → s'.disk (.load, x) ≠ none
  run : ∀ x, s'.disk (.run, x) = s.disk (.run, x) ∨ x ∈ moved ∧ s'.disk (.load, x) ≠ none
  queue : ∃ added, s'.events = s.events ++ added ∧ ∀ x ∈ added, x ∈ moved
  queued : ∀ x, s'.disk (.load, x) ≠ none → s.disk (.load, x) ≠ none ∨ x ∈ s'.events

theorem Moves.refl (moved : Set (List Char)) (s : State) : Moves moved s s :=
  ⟨rfl, fun _ h => h, fun _ => .inl rfl, ⟨[], by simp, by simp⟩, fun _ h => .inl h⟩

theorem Moves.trans {moved : Set (List Char)} {t : State} (h : Moves moved s s')
    (h' : Moves moved s' t) : Moves moved s t := by
  obtain ⟨added, hadded, hin⟩ := h.queue
  obtain ⟨added', hadded', hin'⟩ := h'.queue
  refine ⟨h'.plugins.trans h.plugins, fun x hx => h'.load x (h.load x hx), fun x => ?_,
    ⟨added ++ added', by rw [hadded', hadded, List.append_assoc], fun x hx => ?_⟩, fun x hx => ?_⟩
  · rcases h'.run x with hx | hx
    · rcases h.run x with hy | ⟨hm, hy⟩
      · exact .inl (hx.trans hy)
      · exact .inr ⟨hm, h'.load x hy⟩
    · exact .inr hx
  · rcases List.mem_append.mp hx with hx | hx
    · exact hin x hx
    · exact hin' x hx
  · rcases h'.queued x hx with hx | hx
    · rcases h.queued x hx with hx | hx
      · exact .inl hx
      · exact .inr (by rw [hadded']; exact List.mem_append_left _ hx)
    · exact .inr hx

theorem Moves.mono {moved moved' : Set (List Char)} (h : Moves moved s s')
    (hsub : moved ⊆ moved') : Moves moved' s s' := by
  obtain ⟨added, hadded, hin⟩ := h.queue
  exact ⟨h.plugins, h.load, fun x => (h.run x).imp_right fun hx => ⟨hsub hx.1, hx.2⟩,
    ⟨added, hadded, fun x hx => hsub (hin x hx)⟩, h.queued⟩

/-- After `moveCfg` the configuration is in the load directory, if there was one at all. -/
theorem moveCfg_spec (p : Plugin) (s : State) :
    Moves {p.cfgFile} s (moveCfg p s) ∧
      ((moveCfg p s).disk (.load, p.cfgFile) ≠ none ∨ s.disk (.run, p.cfgFile) = none) := by
  unfold moveCfg
  split
  · rename_i hexists
    exact ⟨Moves.refl _ _, .inl (hsFileExists_ne_none hexists)⟩
  · rw [rename_noFail fun h => by cases h]
    cases hrun : s.disk (.run, p.cfgFile) with
    | none => exact ⟨Moves.refl _ _, .inr rfl⟩
    | some f =>
      simp only [Option.map_some]
      have hload : ∀ x, x ≠ p.cfgFile → Function.update
          (Function.update s.disk (.run, p.cfgFile) none) (.load, p.cfgFile) (some f) (.load, x) =
            s.disk (.load, x) := by
        intro x hx
        rw [Function.update_of_ne fun h => hx (congrArg Prod.snd h),
          Function.update_of_ne fun h => (by cases h)]
      have hrest : ∀ x, x ≠ p.cfgFile → Function.update
          (Function.update s.disk (.run, p.cfgFile) none) (.load, p.cfgFile) (some f) (.run, x) =
            s.disk (.run, x) := by
        intro x hx
        rw [Function.update_of_ne fun h => (by cases h),
          Function.update_of_ne fun h => hx (congrArg Prod.snd h)]
      refine ⟨⟨rfl, fun x hx => ?_, fun x => ?_, ⟨[p.cfgFile], rfl, by simp⟩, fun x hx => ?_⟩,
        .inl (by simp)⟩
      · by_cases hxp : x = p.cfgFile
        · simp [hxp]
        · simpa only [hload x hxp] using hx
      · by_cases hxp : x = p.cfgFile
        · exact .inr ⟨hxp, by simp [hxp]⟩
        · exact .inl (hrest x hxp)
      · by_cases hxp : x = p.cfgFile
        · exact .inr (by simp [hxp])
        · exact .inl (by simpa only [hload x hxp] using hx)

/-- The configurations of the plugins that run the code `fn`. -/
def restarted (fn : List Char) (ps : List (Option Plugin)) : Set (List Char) :=
  {x | ∃ p, some p ∈ ps ∧ p.runs fn = true ∧ x = p.cfgFile}

theorem restart_spec {ps : List (Option Plugin)}
    (h : restartPlugins lpath rpath fn ps s = some s') :
    Moves (restarted fn ps) s s' ∧
      ∀ x ∈ restarted fn ps, s'.disk (.load, x) ≠ none ∨ s.disk (.run, x) = none := by
  induction ps generalizing s with
  | nil =>
    cases h
    exact ⟨Moves.refl _ _, fun x ⟨p, hp, _⟩ => by cases hp⟩
  | cons slot ps ih =>
    have hsub : restarted fn ps ⊆ restarted fn (slot :: ps) :=
      fun x ⟨p, hp, hx⟩ => ⟨p, List.mem_cons_of_mem _ hp, hx⟩
    cases slot with
    | none =>
      obtain ⟨hmoves, hall⟩ := ih h
      refine ⟨hmoves.mono hsub, fun x ⟨p, hp, hx⟩ => hall x ⟨p, ?_, hx⟩⟩
      simpa using hp
    | some p =>
      simp only [restartPlugins] at h
      by_cases hruns : p.runs fn = true
      · rw [if_pos hruns] at h
        split at h
        · obtain ⟨hone, hp⟩ := moveCfg_spec p s
          obtain ⟨hmoves, hall⟩ := ih h
          have hin : {p.cfgFile} ⊆ restarted fn (some p :: ps) := by
            rintro x rfl
            exact ⟨p, List.mem_cons_self, hruns, rfl⟩
          refine ⟨(hone.mono hin).trans (hmoves.mono hsub), ?_⟩
          rintro x ⟨q, hq, hqruns, rfl⟩
          rcases List.mem_cons.mp hq with hq | hq
          · cases hq
            exact hp.imp_left (hmoves.load _)
          · rcases hall _ ⟨q, hq, hqruns, rfl⟩ with hload | hrun
            · exact .inl hload
            · rcases hone.run q.cfgFile with hsame | ⟨-, hload⟩
              · exact .inr (hsame ▸ hrun)
              · exact .inl (hmoves.load _ hload)
        · cases h
      · rw [if_neg hruns] at h
        obtain ⟨hmoves, hall⟩ := ih h
        refine ⟨hmoves.mono hsub, ?_⟩
        rintro x ⟨q, hq, hqruns, rfl⟩
        rcases List.mem_cons.mp hq with hq | hq
        · cases hq
          exact absurd hqruns hruns
        · exact hall _ ⟨q, hq, hqruns, rfl⟩

/-! ## Moving a configuration -/

/-- What `hs_process_load_cfg` changes when no call fails. -/
structure Processed (fn : List Char) (d : FileSystem) (ret : Int) (d' : FileSystem) : Prop where
  load : ∀ x, x ≠ fn → d' (.load, x) = d (.load, x)
  gone : hsHasExt fn hsCfgExt = true → d' (.load, fn) = none
  lua : ∀ x, hsHasExt x hsLuaExt = true → d' (.run, x) = d (.run, x)
  cfg : ∀ b, b ≠ baseOf fn → d' (.run, b ++ hsCfgExt) = d (.run, b ++ hsCfgExt)
  kept : ret ≠ 0 → ret ≠ 1 → ∀ b, d' (.run, b ++ hsCfgExt) = d (.run, b ++ hsCfgExt)
  config : ret = 0 ∨ ret = 1 → isConfig fn = true
  added : ret = 1 → hsHasExt fn hsCfgExt = true
  absent : hsHasExt fn hsCfgExt = true → ret ≠ 1 → d (.load, fn) = none

theorem clear_noFail {x : Path} (h : clear noFail x d = none) : False := by
  have hblocked := (clear_eq_none.mp h).2
  cases hblocked

/-- Two files of the run directory with different extensions. -/
theorem run_ne {x : List Char} {ext ext' : List Char} (hlen : ext.length = hsExtLen)
    (hlen' : ext'.length = hsExtLen) (hne : ext ≠ ext') (fn : List Char)
    (h : hsHasExt x ext' = true) : (Place.run, x) ≠ (Place.run, withExt fn ext) := by
  intro heq
  have hx : x = baseOf fn ++ ext := congrArg Prod.snd heq
  rw [hx, not_hasExt hlen hlen' hne] at h
  cases h

theorem lua_ne {x ext : List Char} (hext : ext = hsCfgExt ∨ ext = hsOffExt ∨ ext = hsErrExt)
    (fn : List Char) (h : hsHasExt x hsLuaExt = true) :
    (Place.run, x) ≠ (Place.run, withExt fn ext) := by
  rcases hext with rfl | rfl | rfl
  · exact run_ne length_cfg length_lua cfg_ne_lua fn h
  · exact run_ne length_off length_lua off_ne_lua fn h
  · exact run_ne length_err length_lua err_ne_lua fn h

theorem cfg_ne {b ext : List Char} (hext : ext = hsOffExt ∨ ext = hsErrExt) (fn : List Char) :
    (Place.run, b ++ hsCfgExt) ≠ (Place.run, withExt fn ext) := by
  intro heq
  have hlist : b ++ hsCfgExt = baseOf fn ++ ext := congrArg Prod.snd heq
  rcases hext with rfl | rfl
  · exact append_ext_ne length_cfg length_off cfg_ne_off hlist
  · exact append_ext_ne length_cfg length_err cfg_ne_err hlist

theorem process_cfg {ret : Int} (hcfg : hsHasExt fn hsCfgExt = true)
    (h : hsProcessLoadCfg noFail lpath rpath fn d = some (ret, d')) : Processed fn d ret d' := by
  simp only [hsProcessLoadCfg, hcfg, if_true] at h
  split at h
  case isFalse => cases h
  split at h
  · exact (clear_noFail ‹_›).elim
  rename_i d₁ hoff
  split at h
  · exact (clear_noFail ‹_›).elim
  rename_i d₂ herr
  have hload : ∀ x, d₂ (.load, x) = d (.load, x) := fun x =>
    (clear_other herr fun h => (by cases h)).trans (clear_other hoff fun h => (by cases h))
  have hlua : ∀ x, hsHasExt x hsLuaExt = true → d₂ (.run, x) = d (.run, x) := fun x hx =>
    (clear_other herr (lua_ne (.inr (.inr rfl)) fn hx)).trans
      (clear_other hoff (lua_ne (.inr (.inl rfl)) fn hx))
  have hrun : ∀ b, d₂ (.run, b ++ hsCfgExt) = d (.run, b ++ hsCfgExt) := fun b =>
    (clear_other herr (cfg_ne (.inr rfl) fn)).trans (clear_other hoff (cfg_ne (.inl rfl) fn))
  rw [rename_noFail fun h => (by cases h)] at h
  cases hfile : d₂ (.load, fn) with
  | none =>
    simp only [hfile, Option.map_none, Option.some.injEq, Prod.mk.injEq] at h
    obtain ⟨rfl, rfl⟩ := h
    exact ⟨fun x _ => hload x, fun _ => hfile, hlua, fun b _ => hrun b, fun _ _ => hrun,
      fun h => by omega, fun h => by omega, fun _ _ => (hload fn).symm.trans hfile⟩
  | some f =>
    simp only [hfile, Option.map_some, Option.some.injEq, Prod.mk.injEq] at h
    obtain ⟨rfl, rfl⟩ := h
    refine ⟨fun x hx => ?_, fun _ => ?_, fun x hx => ?_, fun b hb => ?_, fun _ h => absurd rfl h,
      fun _ => by simp only [isConfig, hcfg, Bool.true_or], fun _ => hcfg, fun _ h => absurd rfl h⟩
    · rw [Function.update_of_ne fun h => (by cases h),
        Function.update_of_ne fun h => hx (congrArg Prod.snd h), hload x]
    · rw [Function.update_of_ne fun h => (by cases h), Function.update_self]
    · have hne : (Place.run, x) ≠ (Place.run, fn) := by
        rw [← baseOf_cfg hcfg]
        exact lua_ne (.inl rfl) fn hx
      rw [Function.update_of_ne hne, Function.update_of_ne fun h => (by cases h), hlua x hx]
    · have hne : (Place.run, b ++ hsCfgExt) ≠ (Place.run, fn) := by
        intro heq
        have hfn : b ++ hsCfgExt = fn := congrArg Prod.snd heq
        exact hb (by rw [← hfn, baseOf_append b length_cfg])
      rw [Function.update_of_ne hne, Function.update_of_ne fun h => (by cases h), hrun b]

theorem process_off {ret : Int} (hcfg : hsHasExt fn hsCfgExt = false)
    (hoff : hsHasExt fn hsOffExt = true)
    (h : hsProcessLoadCfg noFail lpath rpath fn d = some (ret, d')) : Processed fn d ret d' := by
  have hconfig : isConfig fn = true := by simp only [isConfig, hoff, Bool.or_true]
  have hnot : ¬hsHasExt fn hsCfgExt = true := by simp [hcfg]
  simp only [hsProcessLoadCfg, hcfg, hoff, Bool.false_eq_true, if_false, if_true] at h
  split at h
  case isFalse => cases h
  split at h
  · cases h
    exact ⟨fun _ _ => rfl, fun h => absurd h hnot, fun _ _ => rfl, fun _ _ => rfl,
      fun _ _ _ => rfl, fun h => by omega, fun h => by omega, fun h => absurd h hnot⟩
  rename_i d₁ hunlink
  obtain ⟨-, -, rfl⟩ := unlink_cases hunlink
  split at h
  case isFalse => cases h
  have hcfgne : ∀ b, (Place.run, b ++ hsCfgExt) ≠ (Place.run, fn) := by
    intro b
    rw [← baseOf_off hoff]
    exact cfg_ne (.inl rfl) fn
  have hne : (Place.run, withExt fn hsCfgExt) ≠ (Place.run, fn) := hcfgne (baseOf fn)
  rw [rename_noFail hne] at h
  have hload : ∀ x, x ≠ fn → Function.update d (.load, fn) none (.load, x) = d (.load, x) :=
    fun x hx => Function.update_of_ne (fun h => hx (congrArg Prod.snd h)) _ _
  have hrun : ∀ x, Function.update d (.load, fn) none (.run, x) = d (.run, x) :=
    fun x => Function.update_of_ne (fun h => (by cases h)) _ _
  rw [hrun] at h
  cases hfile : d (.run, withExt fn hsCfgExt) with
  | none =>
    simp only [hfile, Option.map_none, Option.some.injEq, Prod.mk.injEq] at h
    obtain ⟨rfl, rfl⟩ := h
    exact ⟨hload, fun h => absurd h hnot, fun x _ => hrun x, fun b _ => hrun _,
      fun _ _ b => hrun _, fun _ => hconfig, fun h => by omega, fun h => absurd h hnot⟩
  | some f =>
    simp only [hfile, Option.map_some, Option.some.injEq, Prod.mk.injEq] at h
    obtain ⟨rfl, rfl⟩ := h
    refine ⟨fun x hx => ?_, fun h => absurd h hnot, fun x hx => ?_, fun b hb => ?_,
      fun h => absurd rfl h, fun _ => hconfig, fun h => by omega, fun h => absurd h hnot⟩
    · rw [Function.update_of_ne fun h => (by cases h), Function.update_of_ne fun h => (by cases h),
        hload x hx]
    · have hne' : (Place.run, x) ≠ (Place.run, fn) := by
        rw [← baseOf_off hoff]
        exact lua_ne (.inr (.inl rfl)) fn hx
      rw [Function.update_of_ne hne', Function.update_of_ne (lua_ne (.inl rfl) fn hx), hrun x]
    · have hbase : (Place.run, b ++ hsCfgExt) ≠ (Place.run, withExt fn hsCfgExt) :=
        fun h => hb (List.append_cancel_right (congrArg Prod.snd h))
      rw [Function.update_of_ne (hcfgne b), Function.update_of_ne hbase, hrun]

theorem process_spec {ret : Int}
    (h : hsProcessLoadCfg noFail lpath rpath fn d = some (ret, d')) : Processed fn d ret d' := by
  cases hcfg : hsHasExt fn hsCfgExt with
  | true => exact process_cfg hcfg h
  | false =>
    cases hoff : hsHasExt fn hsOffExt with
    | true => exact process_off hcfg hoff h
    | false =>
      simp only [hsProcessLoadCfg, hcfg, hoff, Bool.false_eq_true, if_false] at h
      cases h
      have hnot : ¬hsHasExt fn hsCfgExt = true := by simp [hcfg]
      exact ⟨fun _ _ => rfl, fun h => absurd h hnot, fun _ _ => rfl, fun _ _ => rfl,
        fun _ _ _ => rfl, fun h => by omega, fun h => by omega, fun h => absurd h hnot⟩

/-! ## The list -/

section

variable {α κ : Type} {name : α → κ} {test : α → Bool} {remove : α → Option α} {b : κ}
  {ps : List (Option α)} {a : α}

theorem mem_removeFirst (hdistinct : Distinct name ps)
    (htest : ∀ p, some p ∈ ps → (test p = true ↔ name p = b))
    (h : some a ∈ removeFirst test remove ps) :
    (some a ∈ ps ∧ name a ≠ b) ∨ ∃ p, some p ∈ ps ∧ name p = b ∧ remove p = some a := by
  induction ps with
  | nil => cases h
  | cons slot ps ih =>
    have ih := ih (PluginList.distinct_tail hdistinct)
      fun p hp => htest p (List.mem_cons_of_mem _ hp)
    have hrest : some a ∈ removeFirst test remove ps →
        (some a ∈ slot :: ps ∧ name a ≠ b) ∨
          ∃ p, some p ∈ slot :: ps ∧ name p = b ∧ remove p = some a := by
      intro h
      rcases ih h with ⟨hmem, hne⟩ | ⟨p, hp, hrest⟩
      · exact .inl ⟨List.mem_cons_of_mem _ hmem, hne⟩
      · exact .inr ⟨p, List.mem_cons_of_mem _ hp, hrest⟩
    cases slot with
    | none =>
      rcases List.mem_cons.mp h with h | h
      · cases h
      · exact hrest h
    | some p =>
      have hp := htest p List.mem_cons_self
      simp only [removeFirst] at h
      split at h
      · rename_i htrue
        rcases List.mem_cons.mp h with h | h
        · exact .inr ⟨p, List.mem_cons_self, hp.mp htrue, h.symm⟩
        · refine .inl ⟨List.mem_cons_of_mem _ h, fun heq => ?_⟩
          exact PluginList.name_ne_of_distinct hdistinct h (heq.trans (hp.mp htrue).symm)
      · rename_i hfalse
        rcases List.mem_cons.mp h with h | h
        · cases h
          exact .inl ⟨List.mem_cons_self, mt hp.mpr hfalse⟩
        · exact hrest h

theorem distinct_removeFirst (hkeep : ∀ p q, remove p = some q → name q = name p)
    (h : Distinct name ps) : Distinct name (removeFirst test remove ps) := by
  refine List.Nodup.sublist ?_ h
  induction ps with
  | nil => exact List.Sublist.refl _
  | cons slot ps ih =>
    cases slot with
    | none => exact ih h
    | some p =>
      simp only [removeFirst]
      split
      · cases hr : remove p with
        | none => exact List.sublist_cons_self _ _
        | some q =>
          simp only [List.filterMap_cons, id, List.map_cons, hkeep p q hr]
          exact List.Sublist.refl _
      · exact (ih (PluginList.distinct_tail h)).cons_cons _

end

theorem add_perm (p : Plugin) (ps : List (Option Plugin)) :
    ((addToPlugins p ps).filterMap id).Perm (p :: ps.filterMap id) := by
  induction ps with
  | nil => exact List.Perm.refl _
  | cons slot ps ih =>
    cases slot with
    | none => exact List.Perm.refl _
    | some q => exact (ih.cons q).trans (List.Perm.swap p q _)

theorem mem_filterMap_id {ps : List (Option Plugin)} : p ∈ ps.filterMap id ↔ some p ∈ ps := by
  simp

theorem mem_add {ps : List (Option Plugin)} : some q ∈ addToPlugins p ps ↔ q = p ∨ some q ∈ ps := by
  rw [← mem_filterMap_id, (add_perm p ps).mem_iff, List.mem_cons, mem_filterMap_id]

theorem distinct_add {ps : List (Option Plugin)} (h : Distinct Plugin.base ps)
    (hnew : ∀ q, some q ∈ ps → q.base ≠ p.base) : Distinct Plugin.base (addToPlugins p ps) := by
  refine ((add_perm p ps).map Plugin.base).nodup_iff.mpr (List.nodup_cons.mpr ⟨?_, h⟩)
  intro hmem
  obtain ⟨q, hq, heq⟩ := List.mem_map.mp hmem
  exact hnew q (mem_filterMap_id.mp hq) heq

theorem filterMap_set_none (ps : List (Option Plugin)) (i : Nat) :
    ((ps.set i none).filterMap id).Sublist (ps.filterMap id) := by
  induction ps generalizing i with
  | nil => exact List.Sublist.refl _
  | cons slot ps ih =>
    cases i with
    | zero => cases slot <;> simp
    | succ i =>
      cases slot with
      | none => exact ih i
      | some p => exact (ih i).cons_cons p

/-! ## The invariant -/

/-- The plugin came from a configuration file. -/
structure Known (lpath rpath : List Char) (names : Naming) (p : Plugin) : Prop where
  ext : hsHasExt p.cfgFile hsCfgExt = true
  plain : Plain lpath rpath names p.cfgFile

structure Inv (lpath rpath : List Char) (names : Naming) (s : State) : Prop where
  distinct : Distinct Plugin.base s.plugins
  known : ∀ p, some p ∈ s.plugins → Known lpath rpath names p
  queued : ∀ fn ∈ s.events, Plain lpath rpath names fn
  pending : ∀ x, hsHasExt x hsCfgExt = true → s.disk (.load, x) ≠ none → x ∈ s.events
  fresh : ∀ p, some p ∈ s.plugins → p.stopping = false →
    Fresh s.disk p ∨ s.disk (.load, p.cfgFile) ≠ none

theorem Fresh.congr (h : Fresh d p) (hcfg : d' (.run, p.cfgFile) = d (.run, p.cfgFile))
    (hlua : ∀ x, hsHasExt x hsLuaExt = true → d' (.run, x) = d (.run, x)) : Fresh d' p where
  cfg := by rw [hcfg]; exact h.cfg
  lua fn code hp := by rw [hlua fn.val fn.property]; exact h.lua fn code hp

theorem Known.base (h : Known lpath rpath names p) : p.base ∈ names.bases := by
  have hbase := h.plain.known (by simp only [isConfig, h.ext, Bool.true_or])
  rwa [Plugin.cfgFile, baseOf_append p.base length_cfg] at hbase

theorem Inv.settled (hI : Inv lpath rpath names s) : Settled s := by
  intro p hp hstop hnot
  refine (hI.fresh p hp hstop).resolve_right fun hload => hnot ?_
  exact hI.pending _ (hI.known p hp).ext hload

theorem deliver_inv {f : File} (hI : Inv lpath rpath names s) (hplain : Plain lpath rpath names fn) :
    Inv lpath rpath names { s with
      disk := Function.update s.disk (.load, fn) (some f)
      events := s.events ++ [fn] } := by
  have hrun : ∀ x, Function.update s.disk (.load, fn) (some f) (.run, x) = s.disk (.run, x) :=
    fun x => Function.update_of_ne (fun h => (by cases h)) _ _
  have hload : ∀ x, x ≠ fn →
      Function.update s.disk (.load, fn) (some f) (.load, x) = s.disk (.load, x) :=
    fun x hx => Function.update_of_ne (fun h => hx (congrArg Prod.snd h)) _ _
  refine ⟨hI.distinct, hI.known, fun x hx => ?_, fun x hext hx => ?_, fun p hp hstop => ?_⟩
  · rcases List.mem_append.mp hx with hx | hx
    · exact hI.queued x hx
    · rwa [List.mem_singleton.mp hx]
  · by_cases hxf : x = fn
    · simp [hxf]
    · simp only [hload x hxf] at hx
      exact List.mem_append_left _ (hI.pending x hext hx)
  · refine (hI.fresh p hp hstop).imp (fun h => h.congr (hrun _) fun x _ => hrun x) fun h => ?_
    by_cases hpf : p.cfgFile = fn
    · simp [hpf]
    · simpa only [hload _ hpf] using h

theorem terminate_inv {slot : Nat} {err : Option (List UInt8)} (hI : Inv lpath rpath names s) :
    Inv lpath rpath names { s with
      disk := match err with
        | some text => Function.update s.disk (.run, p.base ++ hsErrExt) (some ⟨text, true⟩)
        | none => s.disk
      plugins := s.plugins.set slot none } := by
  have hsub : ∀ q, some q ∈ s.plugins.set slot none → some q ∈ s.plugins := by
    intro q hq
    rcases List.mem_or_eq_of_mem_set hq with hq | hq
    · exact hq
    · cases hq
  have hdistinct : Distinct Plugin.base (s.plugins.set slot none) :=
    List.Nodup.sublist (List.Sublist.map _ (filterMap_set_none s.plugins slot)) hI.distinct
  have herr : ∀ q : Place × List Char, q ≠ (.run, p.base ++ hsErrExt) →
      (match err with
        | some text => Function.update s.disk (.run, p.base ++ hsErrExt) (some ⟨text, true⟩)
        | none => s.disk) q = s.disk q := by
    intro q hq
    cases err with
    | none => rfl
    | some text => exact Function.update_of_ne hq _ _
  refine ⟨hdistinct, fun q hq => hI.known q (hsub q hq), hI.queued, fun x hext hx => ?_,
    fun q hq hstop => ?_⟩
  · refine hI.pending x hext ?_
    simpa only [herr (.load, x) fun h => (by cases h)] using hx
  · rcases hI.fresh q (hsub q hq) hstop with hfresh | hload
    · refine .inl (hfresh.congr (herr _ ?_) fun x hx => herr _ ?_)
      · intro heq
        exact append_ext_ne length_cfg length_err cfg_ne_err (congrArg Prod.snd heq)
      · intro heq
        have hx' : x = p.base ++ hsErrExt := congrArg Prod.snd heq
        rw [hx', not_hasExt length_err length_lua err_ne_lua] at hx
        cases hx
    · refine .inr ?_
      simpa only [herr (.load, q.cfgFile) fun h => (by cases h)] using hload

/-- New code moves the configurations of the plugins that run it into the queue. -/
theorem lua_inv (hlua : hsHasExt fn hsLuaExt = true)
    (hI : Inv lpath rpath names { s with events := fn :: s.events })
    (h : processLua lpath rpath fn s = some s') : Inv lpath rpath names s' := by
  have hnefn : ∀ x, hsHasExt x hsCfgExt = true → x ≠ fn := by
    rintro x hx rfl
    exact cfg_not_lua hx hlua
  have hpending : ∀ x, hsHasExt x hsCfgExt = true → s.disk (.load, x) ≠ none → x ∈ s.events :=
    fun x hx hload => (List.mem_cons.mp (hI.pending x hx hload)).resolve_left (hnefn x hx)
  have hqueued : ∀ x ∈ s.events, Plain lpath rpath names x :=
    fun x hx => hI.queued x (List.mem_cons_of_mem _ hx)
  unfold processLua at h
  split at h
  case isFalse => cases h
  rw [rename_noFail fun h => (by cases h)] at h
  cases hfile : s.disk (.load, fn) with
  | none =>
    simp only [hfile, Option.map_none, Option.some.injEq] at h
    subst h
    exact ⟨hI.distinct, hI.known, hqueued, hpending, hI.fresh⟩
  | some f =>
    simp only [hfile, Option.map_some] at h
    obtain ⟨hmoves, hall⟩ := restart_spec h
    have hload : ∀ x, x ≠ fn → Function.update (Function.update s.disk (.load, fn) none)
        (.run, fn) (some f) (.load, x) = s.disk (.load, x) := by
      intro x hx
      rw [Function.update_of_ne fun h => (by cases h),
        Function.update_of_ne fun h => hx (congrArg Prod.snd h)]
    have hrun : ∀ x, x ≠ fn → Function.update (Function.update s.disk (.load, fn) none)
        (.run, fn) (some f) (.run, x) = s.disk (.run, x) := by
      intro x hx
      rw [Function.update_of_ne fun h => hx (congrArg Prod.snd h),
        Function.update_of_ne fun h => (by cases h)]
    have hplugins : s'.plugins = s.plugins := hmoves.plugins
    obtain ⟨added, hevents, hadded⟩ := hmoves.queue
    refine ⟨?_, ?_, fun x hx => ?_, fun x hx hx' => ?_, fun p hp hstop => ?_⟩
    · rw [hplugins]; exact hI.distinct
    · rw [hplugins]; exact hI.known
    · rw [hevents] at hx
      rcases List.mem_append.mp hx with hx | hx
      · exact hqueued x hx
      · obtain ⟨p, hp, -, rfl⟩ := hadded x hx
        exact (hI.known p hp).plain
    · rcases hmoves.queued x hx' with hold | hnew
      · simp only [hload x (hnefn x hx)] at hold
        rw [hevents]
        exact List.mem_append_left _ (hpending x hx hold)
      · exact hnew
    · rw [hplugins] at hp
      have hext := (hI.known p hp).ext
      rcases hI.fresh p hp hstop with hfresh | hold
      · rcases hmoves.run p.cfgFile with hsame | ⟨-, hnew⟩
        · by_cases hruns : p.runs fn = true
          · rcases hall p.cfgFile ⟨p, hp, hruns, rfl⟩ with hnew | hnone
            · exact .inr hnew
            · obtain ⟨g, hg, -⟩ := hfresh.cfg
              simp only [hrun _ (hnefn _ hext)] at hnone
              rw [hnone] at hg
              cases hg
          · refine .inl ⟨?_, fun lua code hcode => ?_⟩
            · rw [hsame]
              simp only [hrun _ (hnefn _ hext)]
              exact hfresh.cfg
            · have hother : lua.val ≠ fn := by
                intro heq
                exact hruns (by simp only [Plugin.runs, hcode, heq, beq_self_eq_true])
              rcases hmoves.run lua.val with hsame' | ⟨⟨q, hq, -, hqf⟩, -⟩
              · rw [hsame']
                simp only [hrun _ hother]
                exact hfresh.lua lua code hcode
              · have hqext := (hI.known q hq).ext
                rw [← hqf] at hqext
                exact (cfg_not_lua hqext lua.property).elim
        · exact .inr hnew
      · refine .inr (hmoves.load _ ?_)
        simpa only [hload _ (hnefn _ hext)] using hold

/-- What a removal leaves in the list. -/
theorem mem_removed {joins : Bool} {ps : List (Option Plugin)} (hconfig : isConfig fn = true)
    (hbase : baseOf fn ∈ names.bases) (hdistinct : Distinct Plugin.base ps)
    (hknown : ∀ p, some p ∈ ps → Known lpath rpath names p)
    (hq : some q ∈ removeFromPlugins k joins fn ps) :
    (some q ∈ ps ∧ q.base ≠ baseOf fn) ∨
      ∃ p, some p ∈ ps ∧ p.base = baseOf fn ∧ removePlugin k joins p = some q :=
  mem_removeFirst hdistinct (fun p hp => matching_iff hconfig hbase (hknown p hp).base) hq

theorem removePlugin_some {joins : Bool} (h : removePlugin k joins p = some q) :
    k = .input ∧ joins = false ∧ q = { p with stopping := true } := by
  unfold removePlugin at h
  split at h
  · cases h
  · split at h
    · cases h
    · cases h
      exact ⟨rfl, Bool.eq_false_iff.mpr ‹_›, rfl⟩

/-- Where the removal reports success, no plugin has the name. -/
theorem removed_gone {joins : Bool} {ps : List (Option Plugin)} (hconfig : isConfig fn = true)
    (hbase : baseOf fn ∈ names.bases) (hdistinct : Distinct Plugin.base ps)
    (hknown : ∀ p, some p ∈ ps → Known lpath rpath names p) (hremoved : removed k joins fn ps = true)
    (q : Plugin) (hq : some q ∈ removeFromPlugins k joins fn ps) : q.base ≠ baseOf fn := by
  rcases mem_removed hconfig hbase hdistinct hknown hq with ⟨-, hne⟩ | ⟨p, hp, hpb, hr⟩
  · exact hne
  · obtain ⟨rfl, rfl, -⟩ := removePlugin_some hr
    simp only [removed, Bool.false_or, Bool.not_eq_true', List.any_eq_false] at hremoved
    have hnot := hremoved (some p) hp
    have hmatch := (matching_iff (k := .input) hconfig hbase (hknown p hp).base).mpr hpb
    simp [hmatch] at hnot

/-- A configuration that was taken out of the load directory, with the plugin of that name removed. -/
theorem removed_inv {joins : Bool} {ret : Int}
    (hI : Inv lpath rpath names { s with events := fn :: s.events })
    (hp : Processed fn s.disk ret d) (hret : ret = 0 ∨ ret = 1) :
    Inv lpath rpath names
      { s with disk := d, plugins := removeFromPlugins k joins fn s.plugins } := by
  have hconfig := hp.config hret
  have hbase := (hI.queued fn List.mem_cons_self).known hconfig
  have hmem : ∀ q, some q ∈ removeFromPlugins k joins fn s.plugins →
      (some q ∈ s.plugins ∧ q.base ≠ baseOf fn) ∨
        ∃ p, some p ∈ s.plugins ∧ p.base = baseOf fn ∧ removePlugin k joins p = some q :=
    fun q => mem_removed hconfig hbase hI.distinct hI.known
  refine ⟨distinct_removeFirst (fun p q h => ?_) hI.distinct, fun q hq => ?_,
    fun x hx => hI.queued x (List.mem_cons_of_mem _ hx), fun x hx hload => ?_,
    fun q hq hstop => ?_⟩
  · rw [(removePlugin_some h).2.2]
  · rcases hmem q hq with ⟨hq, -⟩ | ⟨p, hp, -, hr⟩
    · exact hI.known q hq
    · rw [(removePlugin_some hr).2.2]
      exact ⟨(hI.known p hp).ext, (hI.known p hp).plain⟩
  · by_cases hxf : x = fn
    · subst hxf
      exact absurd (hp.gone hx) hload
    · simp only [hp.load x hxf] at hload
      exact (List.mem_cons.mp (hI.pending x hx hload)).resolve_left hxf
  · rcases hmem q hq with ⟨hq, hne⟩ | ⟨p, -, -, hr⟩
    · have hqf : q.cfgFile ≠ fn := by
        rintro rfl
        exact hne (baseOf_append q.base length_cfg).symm
      refine (hI.fresh q hq hstop).imp (fun h => h.congr (hp.cfg q.base hne) hp.lua) fun h => ?_
      simpa only [hp.load _ hqf] using h
    · rw [(removePlugin_some hr).2.2] at hstop
      cases hstop

/-- Nothing was moved. -/
theorem ignored_inv {ret : Int} (hI : Inv lpath rpath names { s with events := fn :: s.events })
    (hp : Processed fn s.disk ret d) (h0 : ret ≠ 0) (h1 : ret ≠ 1) :
    Inv lpath rpath names { s with disk := d } := by
  refine ⟨hI.distinct, hI.known, fun x hx => hI.queued x (List.mem_cons_of_mem _ hx),
    fun x hx hload => ?_, fun q hq hstop => ?_⟩
  · by_cases hxf : x = fn
    · subst hxf
      exact absurd (hp.gone hx) hload
    · simp only [hp.load x hxf] at hload
      exact (List.mem_cons.mp (hI.pending x hx hload)).resolve_left hxf
  · refine (hI.fresh q hq hstop).imp (fun h => h.congr (hp.kept h0 h1 q.base) hp.lua) fun h => ?_
    by_cases hqf : q.cfgFile = fn
    · have hext := (hI.known q hq).ext
      rw [hqf] at hext h
      exact absurd (hp.absent hext h1) h
    · simpa only [hp.load _ hqf] using h

theorem createPlugin_spec {created : Bool} (h : createPlugin filename created d fn = some p) :
    hsHasExt fn hsCfgExt = true ∧ p.base = baseOf fn ∧ p.stopping = false ∧ Fresh d p := by
  have hread : ∀ x text, readRun d x = some text → ∃ f, d (.run, x) = some f ∧ f.content = text := by
    intro x text hx
    unfold readRun at hx
    split at hx
    · split at hx
      · cases hx
        exact ⟨_, ‹_›, rfl⟩
      · cases hx
    · cases hx
  unfold createPlugin at h
  split at h
  case isFalse => cases h
  rename_i hext
  have hcfg := (Bool.and_eq_true_iff.mp hext).1
  split at h
  case h_2 => cases h
  rename_i text htext
  split at h
  case h_2 => cases h
  rename_i lua hlua
  cases h
  refine ⟨hcfg, rfl, rfl, ?_, fun fn' code hcode => ?_⟩
  · rw [Plugin.cfgFile, baseOf_cfg hcfg]
    exact hread fn text htext
  · simp only [Option.map_eq_some_iff, Prod.mk.injEq] at hcode
    obtain ⟨text', htext', rfl, rfl⟩ := hcode
    exact hread _ _ htext'

theorem startPlugin_inv {created : Bool} (hI : Inv lpath rpath names s)
    (hplain : Plain lpath rpath names fn) (hnew : ∀ q, some q ∈ s.plugins → q.cfgFile ≠ fn) :
    Inv lpath rpath names (startPlugin filename created fn s) := by
  unfold startPlugin
  split
  case h_2 => exact hI
  rename_i p hp
  obtain ⟨hext, hbase, -, hfresh⟩ := createPlugin_spec hp
  have hcfgFile : p.cfgFile = fn := by rw [Plugin.cfgFile, hbase, baseOf_cfg hext]
  have hother : ∀ q, some q ∈ s.plugins → q.base ≠ p.base := by
    intro q hq heq
    exact hnew q hq (by rw [← hcfgFile, Plugin.cfgFile, heq, ← Plugin.cfgFile])
  refine ⟨distinct_add hI.distinct hother, fun q hq => ?_, hI.queued, hI.pending,
    fun q hq hstop => ?_⟩
  · rcases mem_add.mp hq with rfl | hq
    · exact ⟨by rw [hcfgFile]; exact hext, by rw [hcfgFile]; exact hplain⟩
    · exact hI.known q hq
  · rcases mem_add.mp hq with rfl | hq
    · exact .inl hfresh
    · exact hI.fresh q hq hstop

theorem load_inv {joins created : Bool}
    (hI : Inv lpath rpath names { s with events := fn :: s.events })
    (h : hsLoadDynamic lpath rpath filename k joins created fn s = some s') :
    Inv lpath rpath names s' := by
  unfold hsLoadDynamic at h
  split at h
  · exact lua_inv ‹_› hI h
  split at h
  · cases h
  rename_i ret d hprocess
  have hp := process_spec hprocess
  simp only at h
  split at h
  · rename_i hret
    cases h
    exact removed_inv hI hp (.inl hret)
  · split at h
    · rename_i hret
      have hstopped : Inv lpath rpath names
          { s with disk := d, plugins := removeFromPlugins k joins fn s.plugins } :=
        removed_inv hI hp (.inr hret)
      split at h
      · cases h
        have hplain := hI.queued fn List.mem_cons_self
        have hconfig := hp.config (.inr hret)
        refine startPlugin_inv hstopped hplain fun q hq => ?_
        rintro rfl
        exact removed_gone hconfig (hplain.known hconfig) hI.distinct hI.known ‹_› q hq
          (baseOf_append q.base length_cfg).symm
      · cases h
        exact hstopped
    · cases h
      exact ignored_inv hI hp ‹_› ‹_›

theorem step_inv {e : Event} (hI : Inv lpath rpath names s)
    (h : step lpath rpath filename names k s e = some s') : Inv lpath rpath names s' := by
  cases e with
  | deliver fn f =>
    simp only [step, Option.ite_none_right_eq_some, Option.some.injEq] at h
    obtain ⟨hplain, rfl⟩ := h
    exact deliver_inv hI hplain
  | handle joins created =>
    simp only [step] at h
    split at h
    · cases h
    · rename_i fn rest hevents
      have hs : { { s with events := rest } with events := fn :: rest } = s := by rw [← hevents]
      exact load_inv (s := { s with events := rest }) (hs.symm ▸ hI) h
  | terminate slot err =>
    simp only [step] at h
    split at h
    · cases h
      exact terminate_inv hI
    · cases h

/-! ## Start -/

theorem mem_startPlugin {created : Bool} (h : some q ∈ (startPlugin filename created fn s).plugins) :
    some q ∈ s.plugins ∨ q.cfgFile = fn := by
  unfold startPlugin at h
  split at h
  case h_2 => exact .inl h
  rename_i p hp
  obtain ⟨hext, hbase, -⟩ := createPlugin_spec hp
  rcases mem_add.mp h with rfl | h
  · exact .inr (by rw [Plugin.cfgFile, hbase, baseOf_cfg hext])
  · exact .inl h

/-- The directory is read once, so no configuration is started twice. -/
theorem startup_inv {created : List Char → Bool} {fns : List (List Char)} (hnodup : fns.Nodup)
    (hplain : ∀ fn ∈ fns, Plain lpath rpath names fn) (hI : Inv lpath rpath names s)
    (hnew : ∀ q, some q ∈ s.plugins → q.cfgFile ∉ fns) :
    Inv lpath rpath names
      (fns.foldl (fun s fn => startPlugin filename (created fn) fn s) s) := by
  induction fns generalizing s with
  | nil => exact hI
  | cons fn fns ih =>
    obtain ⟨hfn, hnodup⟩ := List.nodup_cons.mp hnodup
    refine ih hnodup (fun x hx => hplain x (List.mem_cons_of_mem _ hx)) ?_ fun q hq => ?_
    · refine startPlugin_inv hI (hplain fn List.mem_cons_self) fun q hq => ?_
      rintro rfl
      exact hnew q hq List.mem_cons_self
    · rcases mem_startPlugin hq with hq | rfl
      · exact fun hmem => hnew q hq (List.mem_cons_of_mem _ hmem)
      · exact hfn

theorem start_inv (r : RunDir lpath rpath names) (created : List Char → Bool) :
    Inv lpath rpath names (start lpath rpath filename names r created) := by
  have hempty : Inv lpath rpath names ⟨r.disk, [], []⟩ := by
    refine ⟨List.nodup_nil, ?_, ?_, fun x _ hx => ?_, ?_⟩
    · simp
    · simp
    · exact absurd rfl hx
    · simp
  refine startup_inv r.nodup (fun fn hfn => ?_) hempty (by simp)
  obtain ⟨f, hf, rfl⟩ := List.mem_map.mp hfn
  exact r.plain f hf

/-! ## Working off the queue -/

/-- How many events are Lua code. -/
def luaCount (fns : List (List Char)) : Nat := fns.countP fun fn => hsHasExt fn hsLuaExt

/-- An event that is handled is gone, and only Lua code brings new ones, which are configurations. -/
theorem load_events {joins created : Bool}
    (hI : Inv lpath rpath names { s with events := fn :: s.events })
    (h : hsLoadDynamic lpath rpath filename k joins created fn s = some s') :
    s'.events = s.events ∨
      hsHasExt fn hsLuaExt = true ∧ luaCount s'.events = luaCount s.events := by
  unfold hsLoadDynamic at h
  split at h
  · rename_i hlua
    unfold processLua at h
    split at h
    case isFalse => cases h
    split at h
    · obtain ⟨added, hevents, hadded⟩ := (restart_spec h).1.queue
      have hzero : luaCount added = 0 := by
        refine List.countP_eq_zero.mpr fun x hx hext => ?_
        obtain ⟨p, hp, -, rfl⟩ := hadded x hx
        exact cfg_not_lua (hI.known p hp).ext hext
      refine .inr ⟨hlua, ?_⟩
      rw [hevents, luaCount, List.countP_append, ← luaCount, ← luaCount, hzero, Nat.add_zero]
    · cases h
      exact .inl rfl
  · split at h
    · cases h
    · simp only at h
      split at h
      · cases h
        exact .inl rfl
      · split at h
        · split at h
          · cases h
            refine .inl ?_
            unfold startPlugin
            split <;> rfl
          · cases h
            exact .inl rfl
        · cases h
          exact .inl rfl

theorem restart_isSome {ps : List (Option Plugin)}
    (hknown : ∀ p, some p ∈ ps → Known lpath rpath names p) :
    (restartPlugins lpath rpath fn ps s).isSome := by
  induction ps generalizing s with
  | nil => rfl
  | cons slot ps ih =>
    have ih := fun s => ih (s := s) fun p hp => hknown p (List.mem_cons_of_mem _ hp)
    cases slot with
    | none => exact ih s
    | some p =>
      simp only [restartPlugins, (hknown p List.mem_cons_self).plain.short, if_true]
      split
      · exact ih _
      · exact ih _

theorem process_isSome (hfits : fitsBoth lpath rpath fn = true) :
    (hsProcessLoadCfg noFail lpath rpath fn d).isSome := by
  obtain ⟨hl, hr⟩ := Bool.and_eq_true_iff.mp hfits
  simp only [hsProcessLoadCfg, hl, hr, Bool.and_self, if_true]
  repeat' split
  all_goals rfl

/-- Handling an event does not end the process. -/
theorem load_isSome (filename : List UInt8 → Option LuaName) (k : Kind) (joins created : Bool)
    (hI : Inv lpath rpath names { s with events := fn :: s.events }) :
    (hsLoadDynamic lpath rpath filename k joins created fn s).isSome := by
  have hfits := (hI.queued fn List.mem_cons_self).short
  unfold hsLoadDynamic
  split
  · simp only [processLua, hfits, if_true]
    split
    · exact restart_isSome hI.known
    · rfl
  · obtain ⟨⟨ret, d⟩, hprocess⟩ := Option.isSome_iff_exists.mp
      (process_isSome (d := s.disk) hfits)
    simp only [hprocess]
    repeat' split
    all_goals rfl

def handles (flags : Nat → Bool × Bool) (n : Nat) : List Event :=
  (List.range n).map fun i => .handle (flags i).1 (flags i).2

theorem handles_succ (flags : Nat → Bool × Bool) (n : Nat) :
    handles flags (n + 1) =
      .handle (flags 0).1 (flags 0).2 :: handles (fun i => flags (i + 1)) n := by
  simp [handles, List.range_succ_eq_map, Function.comp_def]

/-- The queue can be worked off, whatever becomes of the plugins. -/
theorem Inv.drains (filename : List UInt8 → Option LuaName) (k : Kind)
    (hI : Inv lpath rpath names s) (flags : Nat → Bool × Bool) :
    ∃ n t, Runs.run (step lpath rpath filename names k) s (handles flags n) = some t ∧
      t.events = [] ∧ Inv lpath rpath names t := by
  induction hlua : luaCount s.events using Nat.strong_induction_on generalizing s flags with
  | _ l ihlua =>
    induction hlen : s.events.length using Nat.strong_induction_on generalizing s flags with
    | _ m ihlen =>
      cases hevents : s.events with
      | nil => exact ⟨0, s, rfl, hevents, hI⟩
      | cons fn rest =>
        have hs : { { s with events := rest } with events := fn :: rest } = s := by rw [← hevents]
        have hI' : Inv lpath rpath names { { s with events := rest } with events := fn :: rest } :=
          hs.symm ▸ hI
        obtain ⟨s', hs'⟩ := Option.isSome_iff_exists.mp
          (load_isSome (s := { s with events := rest }) filename k (flags 0).1 (flags 0).2 hI')
        have hstep : step lpath rpath filename names k s (.handle (flags 0).1 (flags 0).2) =
            some s' := by simp only [step, hevents, hs']
        have hnext : ∃ n t, Runs.run (step lpath rpath filename names k) s'
            (handles (fun i => flags (i + 1)) n) = some t ∧ t.events = [] ∧
              Inv lpath rpath names t := by
          have hInv := step_inv hI hstep
          have hcount : l = luaCount rest + if hsHasExt fn hsLuaExt = true then 1 else 0 := by
            rw [← hlua, hevents, luaCount, List.countP_cons]
            rfl
          rcases load_events hI' hs' with hsame | ⟨hext, hsame⟩
          · by_cases hext : hsHasExt fn hsLuaExt = true
            · rw [if_pos hext] at hcount
              exact ihlua (luaCount rest) (by omega) hInv _ (by rw [hsame])
            · rw [if_neg hext] at hcount
              refine ihlen rest.length ?_ hInv _ ?_ (by rw [hsame])
              · rw [← hlen, hevents]
                exact Nat.lt_succ_self _
              · rw [hsame]
                exact hcount.symm
          · rw [if_pos hext] at hcount
            exact ihlua (luaCount rest) (by omega) hInv _ hsame
        obtain ⟨n, t, hrun, ht⟩ := hnext
        refine ⟨n + 1, t, ?_, ht⟩
        rw [handles_succ]
        simp only [Runs.run, hstep, hrun]

end

end DynamicLoad

end Hindsight
