import Hindsight.DynamicLoad
import Hindsight.Lib.Slots

/-!
# Hindsight.AnalysisInstances

The configurations of the analysis plugins: loaded at the start and at run time, replaced, stopped and terminated,
over any number of lives of the process. A plugin stays on one thread, and what finds it there again is the thread
number in its `.rtc` file, which counts as long as no `.off` and no `.err` file says that it does not run.

The main thread handles a file in steps, and the analysis threads terminate plugins meanwhile, each with its
`list_lock` held from the `.err` file to the end of the plugin. Calls on files may fail; no name of a
configuration can be read out of the middle of another (`Naming`), and the `.rtc` files are where this version
keeps them. What `hs_load_sandbox_config` and `get_tid` read in a text is a parameter (`Texts`).

* `Safe`: no configuration has two instances, the `.rtc` file has the thread of the instance, and an instance is
  created only where the old one is gone.
* `Admits`: no plugin terminates while its own reload is between the deletion of its `.err` file and the
  removal of the instance; one that is created has its `.rtc` file written whole and logs no error meanwhile.
* `one_instance`: every run whose steps are admitted; `two_instances`: one where a plugin terminates then.
-/

namespace Hindsight

namespace AnalysisInstances

open Files LoadConfig
open AnalysisReload (hsAnalysisDir hsCfgExt)
open PluginList (hsOffExt nameMatches)
open DynamicLoad (Naming Plain baseOf isConfig readRun hsLuaExt)

/-! ## The functions -/

/-- What the functions read in a configuration: the thread option where the file is run and where its text is
loaded (`none` is `UINT_MAX`), and whether it loads. -/
structure Texts where
  getTid : List UInt8 → Option Nat
  thread : List UInt8 → Option Nat
  loads : List UInt8 → Bool

/-- The thread numbers in the `.rtc` files. -/
abbrev RtcFiles := List Char → Option Nat

/-- An analysis thread. The plugins are known by their names; in the slot `dying` one is being terminated, with
`list_lock` held. -/
structure Thread where
  list : List (Option (List Char))
  dying : Option Nat
  deriving DecidableEq, Repr

/-- The file that is handled and its thread; with `dynamic` it may be any thread. -/
structure Target where
  fn : List Char
  tid : Nat
  dynamic : Bool
  deriving DecidableEq, Repr

/-- The thread is known, `hs_process_load_cfg` has returned, the old instance is removed. -/
inductive Phase where
  | idle
  | checked (c : Target)
  | processed (c : Target) (ret : Int)
  | removed (c : Target)
  deriving DecidableEq, Repr

structure State where
  disk : FileSystem
  rtc : RtcFiles
  threads : Nat → Thread
  phase : Phase

section

variable (texts : Texts)

/-- `get_tid` on a file in the load directory. -/
def getTid (d : FileSystem) (fn : List Char) : Option Nat :=
  match d (.load, fn) with
  | some f => if f.readable then texts.getTid f.content else none
  | none => none

/-- `get_thread_id`: `none` when the file is refused; any thread will do for `some none`. -/
def getThreadId (d : FileSystem) (rtc : RtcFiles) (fn : List Char) : Option (Option Nat) :=
  if hsHasExt fn hsCfgExt then
    let tid := getTid texts d fn
    if hsFileExists d (.run, withExt fn hsOffExt) || hsFileExists d (.run, withExt fn hsErrExt) then some tid
    else
      match tid with
      | none => some (rtc (baseOf fn))
      | some t => if rtc (baseOf fn) = some t then some tid else none
  else if hsHasExt fn hsOffExt then (rtc (baseOf fn)).map some
  else none

end

/-- `least_used_thread_id` for the threads from `i` on; `none` is over the limit. -/
def leastUsed (limit : Nat) (util cnt : Nat → Nat) (minUtil minCnt tid i : Nat) : Nat → Option Nat
  | 0 => if limit ≠ 0 ∧ limit ≤ minUtil then none else some tid
  | k + 1 =>
    if util i < minUtil ∨ util i = minUtil ∧ cnt i < minCnt then
      leastUsed limit util cnt (util i) (cnt i) i (i + 1) k
    else leastUsed limit util cnt minUtil minCnt tid (i + 1) k

def leastUsedThreadId (limit : Nat) (util cnt : Nat → Nat) (n : Nat) : Option Nat :=
  leastUsed limit util cnt 255 (2 ^ 31 - 1) 0 0 n

/-- `hs_remove_file` on the load directory. -/
def hsRemoveFile (fails : Call Path → Bool) (fn : List Char) (d : FileSystem) : FileSystem :=
  (unlink fails (.load, fn) d).getD d

/-- `sbc->cfg_name`. -/
def pluginName (b : List Char) : List Char := hsAnalysisDir ++ '.' :: b

def removeFromAnalysisPlugins (fn : List Char) (ps : List (Option (List Char))) :
    List (Option (List Char)) :=
  match Slots.firstWith (fun b => nameMatches hsAnalysisDir fn (pluginName b)) ps with
  | some (i, _) => ps.set i none
  | none => ps

/-- On the thread of the file, which terminates no plugin. -/
def removeFromThread (n : Nat) (c : Target) (threads : Nat → Thread) : Nat → Thread :=
  let t := c.tid % n
  Function.update threads t ⟨removeFromAnalysisPlugins c.fn (threads t).list, none⟩

def addToAnalysisPlugins (b : List Char) (ps : List (Option (List Char))) : List (Option (List Char)) :=
  (Slots.grown ps).set (Slots.firstFree ps) (some b)

/-- What `create_analysis_plugin` comes to, with the last error that is logged meanwhile. The writes of the `.rtc`
file are not checked: `short` is the thread number in one that was not written whole. Where the function fails,
the file may be the old one, the new one or neither. -/
inductive Outcome where
  | created (short : Option (Option Nat)) (err : Option (List UInt8))
  | failed (rtc : Option Nat) (err : Option (List UInt8))

/-- `hs_save_termination_err`. -/
def saveErr (b : List Char) (err : Option (List UInt8)) (d : FileSystem) : FileSystem :=
  match err with
  | some text => Function.update d (.run, b ++ hsErrExt) (some ⟨text, true⟩)
  | none => d

section

variable (texts : Texts) (n : Nat)

/-- The thread of a configuration in the run directory; `tid` where it has no option. -/
def threadOf (d : FileSystem) (fn : List Char) (tid : Nat) : Option Nat :=
  match readRun d fn with
  | some text => if texts.loads text then some ((texts.thread text).getD tid) else none
  | none => none

/-- `hs_load_sandbox_config`, `create_analysis_plugin` and `add_to_analysis_plugins`. -/
def startPlugin (fn : List Char) (tid : Nat) (o : Outcome) (s : State) : State :=
  match threadOf texts s.disk fn tid with
  | none => s
  | some thread =>
    let b := baseOf fn
    match o with
    | .created short err =>
      let t := thread % n
      { s with
        disk := saveErr b err s.disk
        rtc := Function.update s.rtc b (short.getD (some thread))
        threads := Function.update s.threads t
          ⟨addToAnalysisPlugins b (s.threads t).list, (s.threads t).dying⟩ }
    | .failed rtc err =>
      { s with disk := saveErr b err s.disk, rtc := Function.update s.rtc b rtc }

/-- `process_lua` for one plugin that runs the code. -/
def moveCfg (fails : Call Path → Bool) (d : FileSystem) (b : List Char) : FileSystem :=
  if hsFileExists d (.load, b ++ hsCfgExt) then d
  else (rename fails (.run, b ++ hsCfgExt) (.load, b ++ hsCfgExt) d).getD d

/-- `process_lua`; `uses` are the plugins that run the code. -/
def processLua (fails : Call Path → Bool) (uses : List Char → Bool) (fn : List Char) (s : State) : State :=
  match rename fails (.load, fn) (.run, fn) s.disk with
  | none => s
  | some d =>
    let plugins := ((List.range n).flatMap fun t => (s.threads t).list).reduceOption.filter uses
    { s with disk := plugins.foldl (moveCfg fails) d }

/-! ## The machine -/

/-- A configuration at the start of the process: the thread with the fewest plugins when it is its turn, and
what becomes of it. -/
structure Boot where
  fn : List Char
  least : Nat
  outcome : Outcome

/-- `hs_prune_err`. -/
def hsPruneErr (d : FileSystem) : FileSystem
  | (.run, fn) => if hsHasExt fn hsErrExt then none else d (.run, fn)
  | (.load, fn) => d (.load, fn)

def boot (s : State) (c : Boot) : State :=
  if hsHasExt c.fn hsCfgExt then
    startPlugin texts n c.fn ((s.rtc (baseOf c.fn)).getD c.least) c.outcome s
  else s

/-- `hs_load_analysis_startup`. -/
def hsLoadAnalysisStartup (cs : List Boot) (d : FileSystem) (rtc : RtcFiles) : State :=
  cs.foldl (boot texts n) ⟨hsPruneErr d, rtc, fun _ => ⟨[], none⟩, .idle⟩

inductive Event where
  | deliver (fn : List Char) (f : File)
  | processLua (fails : Call Path → Bool) (uses : List Char → Bool) (fn : List Char)
  | check (fails : Call Path → Bool) (util : Nat → Nat) (fn : List Char)
  | process (fails : Call Path → Bool)
  | remove
  | create (o : Outcome)
  | terminate (t slot : Nat) (err : List UInt8)
  | leave (t : Nat)
  | restart (cs : List Boot)

variable (lpath rpath : List Char) (names : Naming) (limit : Nat)

def step (s : State) : Event → Option State
  | .deliver fn f =>
    if Plain lpath rpath names fn then
      some { s with disk := Function.update s.disk (.load, fn) (some f) }
    else none
  | .processLua fails uses fn =>
    if s.phase = .idle ∧ hsHasExt fn hsLuaExt = true ∧ ∀ t < n, (s.threads t).dying = none then
      some (processLua n fails uses fn s)
    else none
  | .check fails util fn =>
    if s.phase = .idle ∧ Plain lpath rpath names fn ∧ hsHasExt fn hsLuaExt = false then
      match getThreadId texts s.disk s.rtc fn with
      | none => some { s with disk := hsRemoveFile fails fn s.disk }
      | some (some tid) => some { s with phase := .checked ⟨fn, tid, false⟩ }
      | some none =>
        if ∀ t < n, (s.threads t).dying = none then
          match leastUsedThreadId limit util (fun t => Slots.occupied (s.threads t).list) n with
          | none => some { s with disk := hsRemoveFile fails fn s.disk }
          | some tid => some { s with phase := .checked ⟨fn, tid, true⟩ }
        else none
    else none
  | .process fails =>
    match s.phase with
    | .checked c =>
      match hsProcessLoadCfg fails lpath rpath c.fn s.disk with
      | none => none
      | some (ret, d) =>
        if ret = 0 ∨ ret = 1 then some { s with disk := d, phase := .processed c ret }
        else some { s with disk := d, phase := .idle }
    | _ => none
  | .remove =>
    match s.phase with
    | .processed c ret =>
      let phase := if ret = 0 then .idle else .removed c
      if ret = 1 ∧ c.dynamic then some { s with phase := phase }
      else if (s.threads (c.tid % n)).dying = none then
        some { s with threads := removeFromThread n c s.threads, phase := phase }
      else none
    | _ => none
  | .create o =>
    match s.phase with
    | .removed c =>
      if ∀ thread ∈ threadOf texts s.disk c.fn c.tid, (s.threads (thread % n)).dying = none then
        some { startPlugin texts n c.fn c.tid o s with phase := .idle }
      else none
    | _ => none
  | .terminate t slot err =>
    match (s.threads t).list[slot]? with
    | some (some b) =>
      if (s.threads t).dying = none then
        some { s with
          disk := saveErr b (some err) s.disk
          threads := Function.update s.threads t ⟨(s.threads t).list, some slot⟩ }
      else none
    | _ => none
  | .leave t =>
    match (s.threads t).dying with
    | some slot =>
      some { s with threads := Function.update s.threads t ⟨(s.threads t).list.set slot none, none⟩ }
    | none => none
  | .restart cs =>
    if (cs.map Boot.fn).Nodup ∧ ∀ c ∈ cs, Plain lpath rpath names c.fn then
      some (hsLoadAnalysisStartup texts n cs s.disk s.rtc)
    else none

/-! ## What is to hold -/

/-- An instance that is not being terminated. -/
def Live (s : State) (t i : Nat) (b : List Char) : Prop :=
  (s.threads t).list[i]? = some (some b) ∧ (s.threads t).dying ≠ some i

structure Safe (s : State) : Prop where
  one : ∀ t i t' j b, Live s t i b → Live s t' j b → t = t' ∧ i = j
  found : ∀ t i b, Live s t i b → ∃ tid, s.rtc b = some tid ∧ tid % n = t
  gone : ∀ c, s.phase = .removed c → ∀ t i, ¬Live s t i (baseOf c.fn)

/-- A plugin that was created has its `.rtc` file and logged no error while it was. -/
def Outcome.quiet : Outcome → Prop
  | .created short err => short = none ∧ err = none
  | .failed _ _ => True

def Admits (s : State) : Event → Prop
  | .create o => o.quiet
  | .restart cs => ∀ c ∈ cs, c.outcome.quiet
  | .terminate t slot _ => ∀ c, s.phase = .processed c 1 →
      (s.threads t).list[slot]? ≠ some (some (baseOf c.fn))
  | _ => True

end

/-! ## Files -/

/-- The flag of a plugin in the run directory. -/
def Flag (d : FileSystem) (b ext : List Char) : Prop := hsFileExists d (.run, b ++ ext) = true

/-- No flag and no configuration of the run directory is new. -/
structure Fewer (d d' : FileSystem) : Prop where
  off : ∀ b, Flag d' b hsOffExt → Flag d b hsOffExt
  err : ∀ b, Flag d' b hsErrExt → Flag d b hsErrExt
  cfg : ∀ b, d' (.run, b ++ hsCfgExt) ≠ none → d (.run, b ++ hsCfgExt) ≠ none

section

variable {fails : Call Path → Bool} {d d' d₁ : FileSystem} {b fn : List Char} {f : Option File}

theorem Flag.congr {ext : List Char} (hsame : d' (.run, b ++ ext) = d (.run, b ++ ext))
    (h : Flag d' b ext) : Flag d b ext := by
  rwa [Flag, ← hsFileExists_congr hsame]

theorem Fewer.refl (d : FileSystem) : Fewer d d := ⟨fun _ h => h, fun _ h => h, fun _ h => h⟩

theorem Fewer.trans (h : Fewer d d₁) (h' : Fewer d₁ d') : Fewer d d' :=
  ⟨fun b hb => h.off b (h'.off b hb), fun b hb => h.err b (h'.err b hb),
    fun b hb => h.cfg b (h'.cfg b hb)⟩

/-- A file of the load directory. -/
theorem fewer_load : Fewer d (Function.update d (.load, fn) f) := by
  have hrun : ∀ x, Function.update d (.load, fn) f (.run, x) = d (.run, x) :=
    fun x => Function.update_of_ne (fun h => (by cases h)) _ _
  refine ⟨fun b => Flag.congr (hrun _), fun b => Flag.congr (hrun _), fun b hb => ?_⟩
  rwa [hrun] at hb

/-- A file of the run directory is taken away. -/
theorem fewer_none (x : List Char) : Fewer d (Function.update d (.run, x) none) := by
  have hold : ∀ y, Function.update d (.run, x) none (.run, y) ≠ none →
      Function.update d (.run, x) none (.run, y) = d (.run, y) := by
    intro y hy
    refine Function.update_of_ne (fun h => hy ?_) _ _
    rw [h, Function.update_self]
  refine ⟨fun b hb => hb.congr (hold _ (hsFileExists_ne_none hb)),
    fun b hb => hb.congr (hold _ (hsFileExists_ne_none hb)), fun b hb => ?_⟩
  rwa [← hold _ hb]

/-- A file of the run directory that is no flag and no configuration. -/
theorem fewer_lua (hfn : hsHasExt fn hsLuaExt = true) : Fewer d (Function.update d (.run, fn) f) := by
  have hother : ∀ b ext, ext.length = AnalysisReload.hsExtLen → ext ≠ hsLuaExt →
      Function.update d (.run, fn) f (.run, b ++ ext) = d (.run, b ++ ext) := by
    intro b ext hlen hne
    refine Function.update_of_ne (fun h => ?_) _ _
    have hname : b ++ ext = fn := congrArg Prod.snd h
    rw [← hname, DynamicLoad.not_hasExt hlen DynamicLoad.length_lua hne] at hfn
    cases hfn
  refine ⟨fun b => Flag.congr (hother b _ DynamicLoad.length_off DynamicLoad.off_ne_lua),
    fun b => Flag.congr (hother b _ DynamicLoad.length_err DynamicLoad.err_ne_lua), fun b hb => ?_⟩
  rwa [hother b _ DynamicLoad.length_cfg DynamicLoad.cfg_ne_lua] at hb

theorem fewer_removeFile : Fewer d (hsRemoveFile fails fn d) := by
  unfold hsRemoveFile
  cases h : unlink fails (.load, fn) d with
  | none => exact Fewer.refl d
  | some d' =>
    obtain ⟨-, -, rfl⟩ := unlink_cases h
    exact fewer_load

theorem fewer_moveCfg : Fewer d (moveCfg fails d b) := by
  unfold moveCfg
  split
  · exact Fewer.refl d
  · cases h : rename fails (.run, b ++ hsCfgExt) (.load, b ++ hsCfgExt) d with
    | none => exact Fewer.refl d
    | some d' =>
      obtain ⟨f, -, -, rfl⟩ := rename_cases (fun h => (by cases h)) h
      exact (fewer_none _).trans fewer_load

theorem fewer_moveCfgs (bs : List (List Char)) : Fewer d (bs.foldl (moveCfg fails) d) := by
  induction bs generalizing d with
  | nil => exact Fewer.refl d
  | cons b bs ih => exact fewer_moveCfg.trans ih

theorem fewer_processLua {s : State} {n : Nat} {uses : List Char → Bool}
    (hfn : hsHasExt fn hsLuaExt = true) : Fewer s.disk (processLua n fails uses fn s).disk := by
  unfold processLua
  cases h : rename fails (.load, fn) (.run, fn) s.disk with
  | none => exact Fewer.refl _
  | some d =>
    obtain ⟨f, -, -, rfl⟩ := rename_cases (fun h => (by cases h)) h
    exact (fewer_load.trans (fewer_lua hfn)).trans (fewer_moveCfgs _)

theorem clear_fewer {x : List Char} (h : clear fails (.run, x) d = some d') :
    Fewer d d' ∧ hsFileExists d' (.run, x) = false := by
  unfold clear at h
  split at h
  · obtain ⟨-, -, rfl⟩ := unlink_cases h
    exact ⟨fewer_none x, by rw [hsFileExists, Function.update_self]⟩
  · rename_i hexists
    cases h
    exact ⟨Fewer.refl d, Bool.eq_false_iff.mpr hexists⟩

/-- The run directory has no configuration with an `.off` file beside it. -/
def Exclusive (d : FileSystem) : Prop :=
  ∀ b, d (.run, b ++ hsCfgExt) ≠ none → ¬Flag d b hsOffExt

theorem Exclusive.fewer (h : Exclusive d) (hf : Fewer d d') : Exclusive d' :=
  fun b hb hoff => h b (hf.cfg b hb) (hf.off b hoff)

/-- What `hs_process_load_cfg` does to the flags. -/
structure Loads (fn : List Char) (d : FileSystem) (ret : Int) (d' : FileSystem) : Prop where
  off : ∀ b, Flag d' b hsOffExt → Flag d b hsOffExt ∨ ret = 0 ∧ baseOf fn = b
  err : ∀ b, Flag d' b hsErrExt → Flag d b hsErrExt
  clean : ret = 1 → hsHasExt fn hsCfgExt = true ∧ ¬Flag d' (baseOf fn) hsErrExt
  exclusive : Exclusive d → Exclusive d'

theorem Loads.of_fewer {ret : Int} (h : Fewer d d') (hret : ret ≠ 1) : Loads fn d ret d' :=
  ⟨fun b hb => .inl (h.off b hb), h.err, fun h => absurd h hret, fun he => he.fewer h⟩

variable {lpath rpath : List Char}

theorem loads_cfg {ret : Int} (hcfg : hsHasExt fn hsCfgExt = true)
    (h : hsProcessLoadCfg fails lpath rpath fn d = some (ret, d')) : Loads fn d ret d' := by
  simp only [hsProcessLoadCfg, hcfg, if_true] at h
  split at h
  case isFalse => cases h
  split at h
  · cases h
    exact .of_fewer (Fewer.refl d) (by decide)
  rename_i d₁ hoff
  obtain ⟨hfewer₁, hoff₁⟩ := clear_fewer hoff
  split at h
  · cases h
    exact .of_fewer hfewer₁ (by decide)
  rename_i d₂ herr
  obtain ⟨hfewer₂, herr₂⟩ := clear_fewer herr
  have hfewer := hfewer₁.trans hfewer₂
  split at h
  · cases h
    exact .of_fewer hfewer (by decide)
  rename_i d₃ hmove
  cases h
  obtain ⟨f, -, -, rfl⟩ := rename_cases (fun h => (by cases h)) hmove
  -- the configuration comes into the run directory, where its flags are gone
  have hfn : baseOf fn ++ hsCfgExt = fn := DynamicLoad.baseOf_cfg hcfg
  have hrun : ∀ x, x ≠ fn → Function.update (Function.update d₂ (.load, fn) none) (.run, fn) (some f)
      (.run, x) = d₂ (.run, x) := by
    intro x hx
    rw [Function.update_of_ne fun h => hx (congrArg Prod.snd h),
      Function.update_of_ne fun h => (by cases h)]
  have hoff' : ∀ b, b ++ hsOffExt ≠ fn := fun b h =>
    DynamicLoad.append_ext_ne DynamicLoad.length_cfg DynamicLoad.length_off DynamicLoad.cfg_ne_off
      (hfn.trans h.symm)
  have herr' : ∀ b, b ++ hsErrExt ≠ fn := fun b h =>
    DynamicLoad.append_ext_ne DynamicLoad.length_cfg DynamicLoad.length_err DynamicLoad.cfg_ne_err
      (hfn.trans h.symm)
  refine ⟨fun b hb => .inl (hfewer.off b (hb.congr (hrun _ (hoff' b)))),
    fun b hb => hfewer.err b (hb.congr (hrun _ (herr' b))), fun _ => ⟨hcfg, fun hflag => ?_⟩,
    fun he b hb hflag => ?_⟩
  · have hflag₂ := hflag.congr (hrun _ (herr' _))
    exact Bool.eq_false_iff.mp herr₂ hflag₂
  · have hflag₂ : Flag d₂ b hsOffExt := hflag.congr (hrun _ (hoff' b))
    by_cases hbase : b = baseOf fn
    · rw [hbase] at hflag₂
      exact Bool.eq_false_iff.mp hoff₁ (hfewer₂.off _ hflag₂)
    · have hne : b ++ hsCfgExt ≠ fn := fun h => hbase (List.append_cancel_right (h.trans hfn.symm))
      rw [hrun _ hne] at hb
      exact he b (hfewer.cfg b hb) (hfewer.off b hflag₂)

theorem loads_off {ret : Int} (hcfg : hsHasExt fn hsCfgExt = false) (hoff : hsHasExt fn hsOffExt = true)
    (h : hsProcessLoadCfg fails lpath rpath fn d = some (ret, d')) : Loads fn d ret d' := by
  simp only [hsProcessLoadCfg, hcfg, hoff, Bool.false_eq_true, if_false, if_true] at h
  split at h
  case isFalse => cases h
  split at h
  · cases h
    exact .of_fewer (Fewer.refl d) (by decide)
  rename_i d₁ hunlink
  obtain ⟨-, -, rfl⟩ := unlink_cases hunlink
  split at h
  case isFalse => cases h
  split at h
  · cases h
    exact .of_fewer fewer_load (by decide)
  rename_i d₂ hmove
  cases h
  have hfn : baseOf fn ++ hsOffExt = fn := DynamicLoad.baseOf_off hoff
  have hne : (Place.run, withExt fn hsCfgExt) ≠ (Place.run, fn) := by
    intro h
    exact DynamicLoad.append_ext_ne DynamicLoad.length_cfg DynamicLoad.length_off DynamicLoad.cfg_ne_off
      ((congrArg Prod.snd h).trans hfn.symm)
  obtain ⟨f, -, -, rfl⟩ := rename_cases hne hmove
  have hfewer : Fewer d (Function.update (Function.update d (.load, fn) none)
      (.run, withExt fn hsCfgExt) none) := fewer_load.trans (fewer_none _)
  -- the configuration becomes the flag
  have hrun : ∀ x, x ≠ fn → Function.update (Function.update (Function.update d (.load, fn) none)
      (.run, withExt fn hsCfgExt) none) (.run, fn) (some f) (.run, x) =
        Function.update (Function.update d (.load, fn) none) (.run, withExt fn hsCfgExt) none (.run, x) :=
    fun x hx => Function.update_of_ne (fun h => hx (congrArg Prod.snd h)) _ _
  have hoff' : ∀ b, b ≠ baseOf fn → b ++ hsOffExt ≠ fn := fun b hb h =>
    hb (List.append_cancel_right (h.trans hfn.symm))
  have herr' : ∀ b, b ++ hsErrExt ≠ fn := fun b h =>
    DynamicLoad.append_ext_ne DynamicLoad.length_off DynamicLoad.length_err DynamicLoad.off_ne_errExt
      (hfn.trans h.symm)
  have hcfg' : ∀ b, b ++ hsCfgExt ≠ fn := fun b h =>
    DynamicLoad.append_ext_ne DynamicLoad.length_cfg DynamicLoad.length_off DynamicLoad.cfg_ne_off
      (h.trans hfn.symm)
  refine ⟨fun b hb => ?_, fun b hb => hfewer.err b (hb.congr (hrun _ (herr' b))), fun h => by omega,
    fun he b hb hflag => ?_⟩
  · by_cases hbase : b = baseOf fn
    · exact .inr ⟨rfl, hbase.symm⟩
    · exact .inl (hfewer.off b (hb.congr (hrun _ (hoff' b hbase))))
  · rw [hrun _ (hcfg' b)] at hb
    have hbase : b ≠ baseOf fn := by
      rintro rfl
      exact hb (Function.update_self ..)
    exact he b (hfewer.cfg b hb) (hfewer.off b (hflag.congr (hrun _ (hoff' b hbase))))

theorem loads_spec {ret : Int} (h : hsProcessLoadCfg fails lpath rpath fn d = some (ret, d')) :
    Loads fn d ret d' := by
  cases hcfg : hsHasExt fn hsCfgExt with
  | true => exact loads_cfg hcfg h
  | false =>
    cases hoff : hsHasExt fn hsOffExt with
    | true => exact loads_off hcfg hoff h
    | false =>
      simp only [hsProcessLoadCfg, hcfg, hoff, Bool.false_eq_true, if_false] at h
      cases h
      exact .of_fewer (Fewer.refl d) (by decide)

end

/-! ## The invariant -/

/-- An instance of the configuration is on the thread that was found. -/
structure Aimed (n : Nat) (names : Naming) (s : State) (c : Target) : Prop where
  config : isConfig c.fn = true
  known : baseOf c.fn ∈ names.bases
  aim : ∀ t i, Live s t i (baseOf c.fn) → c.dynamic = false ∧ c.tid % n = t

structure Inv (n : Nat) (names : Naming) (s : State) : Prop where
  known : ∀ (t i : Nat) b, (s.threads t).list[i]? = some (some b) → b ∈ names.bases
  one : ∀ t i t' j b, Live s t i b → Live s t' j b → t = t' ∧ i = j
  found : ∀ t i b, Live s t i b → ∃ tid, s.rtc b = some tid ∧ tid % n = t
  off : ∀ t i b, Live s t i b → Flag s.disk b hsOffExt → ∃ c, s.phase = .processed c 0 ∧ baseOf c.fn = b
  err : ∀ t i b, Live s t i b → ¬Flag s.disk b hsErrExt
  exclusive : Exclusive s.disk
  checked : ∀ c, s.phase = .checked c → Aimed n names s c
  processed : ∀ c ret, s.phase = .processed c ret → Aimed n names s c ∧ (ret = 0 ∨ ret = 1)
  clean : ∀ c, s.phase = .processed c 1 ∨ s.phase = .removed c →
    hsHasExt c.fn hsCfgExt = true ∧ ¬Flag s.disk (baseOf c.fn) hsErrExt
  removed : ∀ c, s.phase = .removed c →
    isConfig c.fn = true ∧ baseOf c.fn ∈ names.bases ∧ ∀ t i, ¬Live s t i (baseOf c.fn)

section

variable {texts : Texts} {n : Nat} {lpath rpath : List Char} {names : Naming} {limit : Nat} {s s' : State}
  {fails : Call Path → Bool} {fn : List Char} {c : Target} {e : Event} {t : Nat}

theorem Inv.safe (hI : Inv n names s) : Safe n s :=
  ⟨hI.one, hI.found, fun c hc => (hI.removed c hc).2.2⟩

theorem Aimed.less (h : Aimed n names s c) (hlive : ∀ t i b, Live s' t i b → Live s t i b) :
    Aimed n names s' c :=
  ⟨h.config, h.known, fun t i hi => h.aim t i (hlive t i _ hi)⟩

/-- There are fewer instances and fewer flags. -/
theorem Inv.less (hI : Inv n names s)
    (hlist : ∀ (t i : Nat) b, (s'.threads t).list[i]? = some (some b) → (s.threads t).list[i]? = some (some b))
    (hlive : ∀ t i b, Live s' t i b → Live s t i b) (hdisk : Fewer s.disk s'.disk)
    (hrtc : s'.rtc = s.rtc) (hphase : s'.phase = s.phase) : Inv n names s' where
  known t i b hb := hI.known t i b (hlist t i b hb)
  one t i t' j b hi hj := hI.one t i t' j b (hlive t i b hi) (hlive t' j b hj)
  found t i b hi := by rw [hrtc]; exact hI.found t i b (hlive t i b hi)
  off t i b hi hflag := by rw [hphase]; exact hI.off t i b (hlive t i b hi) (hdisk.off b hflag)
  err t i b hi hflag := hI.err t i b (hlive t i b hi) (hdisk.err b hflag)
  exclusive := hI.exclusive.fewer hdisk
  checked c hc := (hI.checked c (hphase ▸ hc)).less hlive
  processed c ret hc := ⟨(hI.processed c ret (hphase ▸ hc)).1.less hlive, (hI.processed c ret (hphase ▸ hc)).2⟩
  clean c hc := (hI.clean c (hphase ▸ hc)).imp id fun h hflag => h (hdisk.err _ hflag)
  removed c hc := by
    obtain ⟨hconfig, hknown, hgone⟩ := hI.removed c (hphase ▸ hc)
    exact ⟨hconfig, hknown, fun t i hi => hgone t i (hlive t i _ hi)⟩

/-- Only a configuration that was stopped and not removed yet may have an `.off` file. -/
theorem Inv.no_off {i : Nat} {b : List Char} (hI : Inv n names s) (hphase : ∀ c, s.phase ≠ .processed c 0)
    (hi : Live s t i b) : ¬Flag s.disk b hsOffExt := by
  intro hflag
  obtain ⟨c, hc, -⟩ := hI.off t i b hi hflag
  exact hphase c hc

/-- What there is to show when no file is being handled. -/
theorem inv_of_idle (hphase : s.phase = .idle)
    (known : ∀ (t i : Nat) b, (s.threads t).list[i]? = some (some b) → b ∈ names.bases)
    (one : ∀ t i t' j b, Live s t i b → Live s t' j b → t = t' ∧ i = j)
    (found : ∀ t i b, Live s t i b → ∃ tid, s.rtc b = some tid ∧ tid % n = t)
    (off : ∀ t i b, Live s t i b → ¬Flag s.disk b hsOffExt)
    (err : ∀ t i b, Live s t i b → ¬Flag s.disk b hsErrExt) (exclusive : Exclusive s.disk) :
    Inv n names s where
  known := known
  one := one
  found := found
  off t i b hi hflag := absurd hflag (off t i b hi)
  err := err
  exclusive := exclusive
  checked c hc := by
    rw [hphase] at hc
    cases hc
  processed c ret hc := by
    rw [hphase] at hc
    cases hc
  clean c hc := by
    rw [hphase] at hc
    rcases hc with hc | hc <;> cases hc
  removed c hc := by
    rw [hphase] at hc
    cases hc

/-- No file is being handled. -/
theorem Inv.idle (hI : Inv n names s) (hphase : s.phase = .idle) (c : Target) (phase : Phase)
    (hnew : phase = .checked c) (haim : Aimed n names s c) : Inv n names { s with phase := phase } := by
  subst hnew
  have hoff : ∀ c, s.phase ≠ .processed c 0 := fun c hc => by cases hphase.symm.trans hc
  refine ⟨hI.known, hI.one, hI.found, fun t i b hi hflag => absurd hflag (hI.no_off hoff hi), hI.err,
    hI.exclusive, fun c' hc => ?_, fun c' ret hc => ?_, fun c' hc => ?_, fun c' hc => ?_⟩
  · cases hc
    exact ⟨haim.config, haim.known, haim.aim⟩
  · cases hc
  · rcases hc with hc | hc
    · cases hc
    · cases hc
  · cases hc

/-- Where an instance runs, its `.rtc` file counts. -/
theorem getThreadId_live {i : Nat} {r : Option Nat} (hI : Inv n names s) (hphase : s.phase = .idle)
    (hi : Live s t i (baseOf fn)) (h : getThreadId texts s.disk s.rtc fn = some r) :
    ∃ tid, r = some tid ∧ tid % n = t := by
  obtain ⟨tid, hrtc, htid⟩ := hI.found t i _ hi
  have hoff : hsFileExists s.disk (.run, withExt fn hsOffExt) = false :=
    Bool.eq_false_iff.mpr (hI.no_off (fun c hc => by cases hphase.symm.trans hc) hi)
  have herr : hsFileExists s.disk (.run, withExt fn hsErrExt) = false :=
    Bool.eq_false_iff.mpr (hI.err t i _ hi)
  refine ⟨tid, ?_, htid⟩
  unfold getThreadId at h
  rw [hoff, herr, hrtc] at h
  split at h
  · simp only [Bool.or_self, Bool.false_eq_true, if_false] at h
    split at h
    · exact (Option.some.inj h).symm
    · rename_i u hu
      obtain ⟨htid', hr⟩ := Option.ite_none_right_eq_some.mp h
      rw [← Option.some.inj hr, hu, htid']
  · split at h
    · exact (Option.some.inj h).symm
    · cases h

theorem isConfig_of_getThreadId {r : Option Nat} (h : getThreadId texts s.disk s.rtc fn = some r) :
    isConfig fn = true := by
  unfold getThreadId at h
  unfold isConfig
  split at h
  · rename_i hcfg
    rw [hcfg, Bool.true_or]
  · split at h
    · rename_i hoff
      rw [hoff, Bool.or_true]
    · cases h

theorem check_inv {util : Nat → Nat} (hI : Inv n names s)
    (h : step texts n lpath rpath names limit s (.check fails util fn) = some s') : Inv n names s' := by
  obtain ⟨⟨hphase, hplain, -⟩, h⟩ := Option.ite_none_right_eq_some.mp h
  have hless : Inv n names { s with disk := hsRemoveFile fails fn s.disk } :=
    hI.less (fun _ _ _ h => h) (fun _ _ _ h => h) fewer_removeFile rfl rfl
  have haim : ∀ tid dynamic, (∃ r, getThreadId texts s.disk s.rtc fn = some r) →
      (∀ t i, Live s t i (baseOf fn) → dynamic = false ∧ tid % n = t) →
      Inv n names { s with phase := .checked ⟨fn, tid, dynamic⟩ } := by
    rintro tid dynamic ⟨r, hr⟩ haim
    have hconfig := isConfig_of_getThreadId hr
    exact hI.idle hphase _ _ rfl ⟨hconfig, hplain.known hconfig, haim⟩
  split at h
  · cases h
    exact hless
  · rename_i tid hid
    cases h
    refine haim tid false ⟨_, hid⟩ fun t i hi => ⟨rfl, ?_⟩
    obtain ⟨tid', htid', hmod⟩ := getThreadId_live hI hphase hi hid
    cases htid'
    exact hmod
  · rename_i hid
    split at h
    · split at h
      · cases h
        exact hless
      · cases h
        refine haim _ true ⟨_, hid⟩ fun t i hi => ?_
        obtain ⟨tid', htid', -⟩ := getThreadId_live hI hphase hi hid
        cases htid'
    · cases h

theorem process_inv (hI : Inv n names s)
    (h : step texts n lpath rpath names limit s (.process fails) = some s') : Inv n names s' := by
  simp only [step] at h
  split at h
  case h_2 => cases h
  rename_i c hphase
  have haim := hI.checked c hphase
  split at h
  · cases h
  rename_i ret d hload
  have hloads := loads_spec hload
  have hoff : ∀ t i b, Live s t i b → Flag d b hsOffExt → ret = 0 ∧ baseOf c.fn = b := by
    intro t i b hi hflag
    exact (hloads.off b hflag).resolve_left (hI.no_off (fun c' hc' => by cases hphase.symm.trans hc') hi)
  split at h
  · rename_i hret
    cases h
    refine ⟨hI.known, hI.one, hI.found, fun t i b hi hflag => ?_,
      fun t i b hi hflag => hI.err t i b hi (hloads.err b hflag), hloads.exclusive hI.exclusive,
      fun c' hc => ?_, fun c' ret' hc => ?_, fun c' hc => ?_, fun c' hc => ?_⟩
    · obtain ⟨rfl, hb⟩ := hoff t i b hi hflag
      exact ⟨c, rfl, hb⟩
    · cases hc
    · cases hc
      exact ⟨⟨haim.config, haim.known, haim.aim⟩, hret⟩
    · rcases hc with hc | hc
      · cases hc
        exact hloads.clean rfl
      · cases hc
    · cases hc
  · rename_i hret
    cases h
    exact inv_of_idle rfl hI.known hI.one hI.found
      (fun t i b hi hflag => hret (.inl (hoff t i b hi hflag).1))
      (fun t i b hi hflag => hI.err t i b hi (hloads.err b hflag)) (hloads.exclusive hI.exclusive)

/-! ## The old instance -/

theorem getElem_removed {ps : List (Option (List Char))} {i : Nat} {b : List Char}
    (h : (removeFromAnalysisPlugins fn ps)[i]? = some (some b)) : ps[i]? = some (some b) := by
  unfold removeFromAnalysisPlugins at h
  split at h
  · exact (Slots.getElem?_clear.mp h).2
  · exact h

/-- The instance that is named is removed, when it is the only one of the list. -/
theorem not_removed {ps : List (Option (List Char))} (hconfig : isConfig fn = true)
    (hbase : baseOf fn ∈ names.bases) (hknown : ∀ (i : Nat) b, ps[i]? = some (some b) → b ∈ names.bases)
    (hone : ∀ i j : Nat, ps[i]? = some (some (baseOf fn)) → ps[j]? = some (some (baseOf fn)) → i = j)
    (i : Nat) : (removeFromAnalysisPlugins fn ps)[i]? ≠ some (some (baseOf fn)) := by
  intro h
  have hi := getElem_removed h
  have hmatch : nameMatches hsAnalysisDir fn (pluginName (baseOf fn)) = true :=
    (DynamicLoad.nameMatches_base hconfig hbase hbase).mpr rfl
  unfold removeFromAnalysisPlugins at h
  split at h
  · rename_i j b hfirst
    obtain ⟨hj, htest⟩ := Slots.firstWith_some hfirst
    have hb : b = baseOf fn :=
      (DynamicLoad.nameMatches_base hconfig hbase (hknown j b hj)).mp htest
    subst hb
    exact (Slots.getElem?_clear.mp h).1 (hone i j hi hj)
  · rename_i hfirst
    have hfalse := Slots.firstWith_none hfirst hi
    rw [hmatch] at hfalse
    cases hfalse

/-- The instance is gone: it ran on the thread that was found, or nowhere. -/
theorem remove_gone {ret : Int} (hI : Inv n names s) (hphase : s.phase = .processed c ret)
    (hfree : (s.threads (c.tid % n)).dying = none) :
    (∀ (t i : Nat) b, (removeFromThread n c s.threads t).list[i]? = some (some b) →
      (s.threads t).list[i]? = some (some b)) ∧
    (∀ t i b, Live { s with threads := removeFromThread n c s.threads } t i b → Live s t i b) ∧
    ∀ t i, ¬Live { s with threads := removeFromThread n c s.threads } t i (baseOf c.fn) := by
  obtain ⟨haim, -⟩ := hI.processed c ret hphase
  have hself : removeFromThread n c s.threads (c.tid % n) =
      ⟨removeFromAnalysisPlugins c.fn (s.threads (c.tid % n)).list, none⟩ := Function.update_self ..
  have hother : ∀ t, t ≠ c.tid % n → removeFromThread n c s.threads t = s.threads t :=
    fun t ht => Function.update_of_ne ht _ _
  have hlist : ∀ (t i : Nat) b, (removeFromThread n c s.threads t).list[i]? = some (some b) →
      (s.threads t).list[i]? = some (some b) := by
    intro t i b hb
    by_cases ht : t = c.tid % n
    · rw [ht, hself] at hb
      rw [ht]
      exact getElem_removed hb
    · rwa [hother t ht] at hb
  have hdying : ∀ i, (s.threads (c.tid % n)).dying ≠ some i := by
    intro i
    rw [hfree]
    exact fun h => by cases h
  have hlive : ∀ t i b, Live { s with threads := removeFromThread n c s.threads } t i b →
      Live s t i b := by
    rintro t i b ⟨hi, hnot⟩
    refine ⟨hlist t i b hi, ?_⟩
    by_cases ht : t = c.tid % n
    · rw [ht]
      exact hdying i
    · simpa only [hother t ht] using hnot
  refine ⟨hlist, hlive, fun t i hi => ?_⟩
  obtain ⟨-, rfl⟩ := haim.aim t i (hlive t i _ hi)
  have hlisted := hi.1
  simp only [hself] at hlisted
  refine not_removed haim.config haim.known (fun i b hb => hI.known _ i b hb) (fun i j hi hj => ?_) i hlisted
  exact (hI.one _ i _ j _ ⟨hi, hdying i⟩ ⟨hj, hdying j⟩).2

/-- After the old instance the new one may come. -/
theorem removed_inv (hI : Inv n names s) {ret : Int} (hphase : s.phase = .processed c ret)
    (threads : Nat → Thread)
    (hlist : ∀ (t i : Nat) b, (threads t).list[i]? = some (some b) → (s.threads t).list[i]? = some (some b))
    (hlive : ∀ t i b, Live { s with threads := threads } t i b → Live s t i b)
    (hgone : ∀ t i, ¬Live { s with threads := threads } t i (baseOf c.fn)) :
    Inv n names { s with threads := threads, phase := if ret = 0 then .idle else .removed c } := by
  obtain ⟨haim, hret⟩ := hI.processed c ret hphase
  have hoff : ∀ t i b, Live { s with threads := threads } t i b → ¬Flag s.disk b hsOffExt := by
    intro t i b hi hflag
    obtain ⟨c', hc', hb⟩ := hI.off t i b (hlive t i b hi) hflag
    rw [hphase] at hc'
    cases hc'
    rw [← hb] at hi
    exact hgone t i hi
  refine ⟨fun t i b hb => hI.known t i b (hlist t i b hb),
    fun t i t' j b hi hj => hI.one t i t' j b (hlive t i b hi) (hlive t' j b hj),
    fun t i b hi => hI.found t i b (hlive t i b hi), fun t i b hi hflag => absurd hflag (hoff t i b hi),
    fun t i b hi => hI.err t i b (hlive t i b hi), hI.exclusive, fun c' hc => ?_, fun c' ret' hc => ?_,
    fun c' hc => ?_, fun c' hc => ?_⟩
  · simp only at hc
    split at hc <;> cases hc
  · simp only at hc
    split at hc <;> cases hc
  · simp only at hc
    rcases hret with rfl | rfl
    · rcases hc with hc | hc
      · cases hc
      · cases hc
    · rcases hc with hc | hc
      · cases hc
      · cases hc
        exact hI.clean c (.inl hphase)
  · simp only at hc
    split at hc
    · cases hc
    · cases hc
      exact ⟨haim.config, haim.known, hgone⟩

theorem remove_inv (hI : Inv n names s)
    (h : step texts n lpath rpath names limit s .remove = some s') : Inv n names s' := by
  simp only [step] at h
  split at h
  case h_2 => cases h
  rename_i c ret hphase
  obtain ⟨haim, -⟩ := hI.processed c ret hphase
  split at h
  · rename_i hdynamic
    cases h
    refine removed_inv hI hphase s.threads (fun _ _ _ h => h) (fun _ _ _ h => h)
      fun t i hi => ?_
    have hfalse := (haim.aim t i hi).1
    rw [hdynamic.2] at hfalse
    cases hfalse
  · obtain ⟨hfree, h⟩ := Option.ite_none_right_eq_some.mp h
    rw [← Option.some.inj h]
    obtain ⟨hlist, hlive, hgone⟩ := remove_gone hI hphase hfree
    exact removed_inv hI hphase _ hlist hlive hgone

/-! ## A new instance -/

section

variable {b b' : List Char} {err : Option (List UInt8)} {d : FileSystem}

theorem saveErr_other {x : List Char} (hx : x ≠ b ++ hsErrExt) : saveErr b err d (.run, x) = d (.run, x) := by
  unfold saveErr
  split
  · exact Function.update_of_ne (fun h => hx (congrArg Prod.snd h)) _ _
  · rfl

theorem saveErr_off (h : Flag (saveErr b err d) b' hsOffExt) : Flag d b' hsOffExt :=
  h.congr (saveErr_other (DynamicLoad.append_ext_ne DynamicLoad.length_off DynamicLoad.length_err
    DynamicLoad.off_ne_errExt))

theorem saveErr_err (hb : b' ≠ b) (h : Flag (saveErr b err d) b' hsErrExt) : Flag d b' hsErrExt :=
  h.congr (saveErr_other fun h => hb (List.append_cancel_right h))

theorem saveErr_exclusive (h : Exclusive d) : Exclusive (saveErr b err d) := by
  intro b' hb hflag
  rw [saveErr_other (DynamicLoad.append_ext_ne DynamicLoad.length_cfg DynamicLoad.length_err
    DynamicLoad.cfg_ne_err)] at hb
  exact h b' hb (saveErr_off hflag)

theorem getElem_added {ps : List (Option (List Char))} {i : Nat} :
    (addToAnalysisPlugins b ps)[i]? = some (some b') ↔
      i = Slots.firstFree ps ∧ b' = b ∨ ps[i]? = some (some b') := by
  rw [addToAnalysisPlugins, Slots.getElem?_fill Slots.getElem?_firstFree, Slots.getElem?_grown]

end

/-- A configuration that loads is in the run directory. -/
theorem ne_none_of_threadOf {tid thread : Nat} {d : FileSystem} (h : threadOf texts d fn tid = some thread) :
    d (.run, fn) ≠ none := by
  intro hnone
  simp only [threadOf, readRun, hnone] at h
  cases h

/-- What does not run may be created. -/
structure Absent (names : Naming) (s : State) (fn : List Char) : Prop where
  cfg : hsHasExt fn hsCfgExt = true
  known : baseOf fn ∈ names.bases
  gone : ∀ t i, ¬Live s t i (baseOf fn)
  err : ¬Flag s.disk (baseOf fn) hsErrExt

theorem Absent.off {tid thread : Nat} (h : Absent names s fn) (hI : Inv n names s)
    (hthread : threadOf texts s.disk fn tid = some thread) : ¬Flag s.disk (baseOf fn) hsOffExt := by
  refine hI.exclusive _ ?_
  rw [DynamicLoad.baseOf_cfg h.cfg]
  exact ne_none_of_threadOf hthread

/-- The plugin was created: the `.rtc` file and the slot are its own. -/
theorem created_inv {thread : Nat} (hI : Inv n names s) (hphase : s.phase = .idle) (ha : Absent names s fn)
    (hoff : ¬Flag s.disk (baseOf fn) hsOffExt) :
    Inv n names { s with
      rtc := Function.update s.rtc (baseOf fn) (some thread)
      threads := Function.update s.threads (thread % n)
        ⟨addToAnalysisPlugins (baseOf fn) (s.threads (thread % n)).list, (s.threads (thread % n)).dying⟩ } := by
  let s' : State := { s with
      rtc := Function.update s.rtc (baseOf fn) (some thread)
      threads := Function.update s.threads (thread % n)
        ⟨addToAnalysisPlugins (baseOf fn) (s.threads (thread % n)).list, (s.threads (thread % n)).dying⟩ }
  have hlist : ∀ (t i : Nat) b, (s'.threads t).list[i]? = some (some b) →
      (t = thread % n ∧ i = Slots.firstFree (s.threads t).list ∧ b = baseOf fn) ∨
        (s.threads t).list[i]? = some (some b) := by
    intro t i b hb
    by_cases ht : t = thread % n
    · subst ht
      simp only [s', Function.update_self] at hb
      exact (getElem_added.mp hb).imp (fun h => ⟨rfl, h.1, h.2⟩) id
    · simp only [s', Function.update_of_ne ht] at hb
      exact .inr hb
  have hlive : ∀ t i b, Live s' t i b →
      (t = thread % n ∧ i = Slots.firstFree (s.threads t).list ∧ b = baseOf fn) ∨ Live s t i b := by
    rintro t i b ⟨hb, hdying⟩
    refine (hlist t i b hb).imp id fun hb => ⟨hb, ?_⟩
    by_cases ht : t = thread % n
    · subst ht
      simpa only [s', Function.update_self] using hdying
    · simpa only [s', Function.update_of_ne ht] using hdying
  have hne : ∀ t i b, Live s t i b → b ≠ baseOf fn := by
    rintro t i b hi rfl
    exact ha.gone t i hi
  refine inv_of_idle (s := s') hphase (fun t i b hb => ?_) (fun t i t' j b hi hj => ?_) (fun t i b hi => ?_)
    (fun t i b hi hflag => ?_) (fun t i b hi hflag => ?_) hI.exclusive
  · rcases hlist t i b hb with ⟨-, -, rfl⟩ | hb
    · exact ha.known
    · exact hI.known t i b hb
  · rcases hlive t i b hi with ⟨rfl, rfl, rfl⟩ | hi
    · rcases hlive t' j _ hj with ⟨rfl, rfl, -⟩ | hj
      · exact ⟨rfl, rfl⟩
      · exact absurd hj (ha.gone t' j)
    · rcases hlive t' j b hj with ⟨-, -, rfl⟩ | hj
      · exact absurd hi (ha.gone t i)
      · exact hI.one t i t' j b hi hj
  · rcases hlive t i b hi with ⟨rfl, -, rfl⟩ | hi
    · exact ⟨thread, Function.update_self .., rfl⟩
    · obtain ⟨tid, hrtc, htid⟩ := hI.found t i b hi
      exact ⟨tid, (Function.update_of_ne (hne t i b hi) ..).trans hrtc, htid⟩
  · rcases hlive t i b hi with ⟨-, -, rfl⟩ | hi
    · exact hoff hflag
    · exact hI.no_off (fun c hc => by cases hphase.symm.trans hc) hi hflag
  · rcases hlive t i b hi with ⟨-, -, rfl⟩ | hi
    · exact ha.err hflag
    · exact hI.err t i b hi hflag

/-- The plugin was not created: its `.rtc` and its `.err` file may have changed. -/
theorem failed_inv {rtc : Option Nat} {err : Option (List UInt8)} (hI : Inv n names s)
    (hphase : s.phase = .idle) (ha : Absent names s fn) :
    Inv n names { s with
      disk := saveErr (baseOf fn) err s.disk
      rtc := Function.update s.rtc (baseOf fn) rtc } := by
  have hne : ∀ t i b, Live s t i b → b ≠ baseOf fn := by
    rintro t i b hi rfl
    exact ha.gone t i hi
  have hoff : ∀ c, s.phase ≠ .processed c 0 := fun c hc => by cases hphase.symm.trans hc
  refine inv_of_idle hphase hI.known hI.one (fun t i b hi => ?_)
    (fun t i b hi hflag => hI.no_off hoff hi (saveErr_off hflag))
    (fun t i b hi hflag => hI.err t i b hi (saveErr_err (hne t i b hi) hflag)) (saveErr_exclusive hI.exclusive)
  obtain ⟨tid, hrtc, htid⟩ := hI.found t i b hi
  exact ⟨tid, (Function.update_of_ne (hne t i b hi) ..).trans hrtc, htid⟩

theorem start_inv {tid : Nat} {o : Outcome} (hI : Inv n names s) (hphase : s.phase = .idle)
    (ha : Absent names s fn) (hquiet : o.quiet) : Inv n names (startPlugin texts n fn tid o s) := by
  unfold startPlugin
  split
  · exact hI
  · rename_i thread hthread
    cases o with
    | created short err =>
      obtain ⟨hshort, herr⟩ : short = none ∧ err = none := hquiet
      subst hshort herr
      exact created_inv hI hphase ha (ha.off hI hthread)
    | failed rtc err => exact failed_inv hI hphase ha

theorem startPlugin_idle {tid : Nat} {o : Outcome} :
    { startPlugin texts n fn tid o s with phase := .idle } =
      startPlugin texts n fn tid o { s with phase := .idle } := by
  unfold startPlugin
  simp only
  split
  · rfl
  · cases o <;> rfl

theorem create_inv {o : Outcome} (hI : Inv n names s) (hquiet : o.quiet)
    (h : step texts n lpath rpath names limit s (.create o) = some s') : Inv n names s' := by
  simp only [step] at h
  split at h
  case h_2 => cases h
  rename_i c hphase
  obtain ⟨hconfig, hknown, hgone⟩ := hI.removed c hphase
  have hoff : ∀ c', s.phase ≠ .processed c' 0 := fun c' hc' => by cases hphase.symm.trans hc'
  have hidle : Inv n names { s with phase := .idle } :=
    inv_of_idle rfl hI.known hI.one hI.found (fun _ _ _ => hI.no_off hoff) hI.err hI.exclusive
  obtain ⟨-, h⟩ := Option.ite_none_right_eq_some.mp h
  rw [← Option.some.inj h, startPlugin_idle]
  obtain ⟨hcfg, herr⟩ := hI.clean c (.inr hphase)
  exact start_inv hidle rfl ⟨hcfg, hknown, hgone, herr⟩ hquiet

/-! ## The end of an instance -/

theorem list_terminating (threads : Nat → Thread) (t slot u : Nat) :
    (Function.update threads t ⟨(threads t).list, some slot⟩ u).list = (threads u).list := by
  by_cases hu : u = t
  · rw [hu, Function.update_self]
  · rw [Function.update_of_ne hu]

/-- The instance in the slot is none any more, so none is left of its configuration. -/
theorem live_terminating {slot u i : Nat} {b b' : List Char} (hI : Inv n names s)
    (hfree : (s.threads t).dying = none) (hb : Live s t slot b)
    (hi : Live { s with threads := Function.update s.threads t ⟨(s.threads t).list, some slot⟩ } u i b') :
    Live s u i b' ∧ b' ≠ b := by
  obtain ⟨hi, hdying⟩ := hi
  simp only [list_terminating] at hi
  have hold : Live s u i b' ∧ ¬(u = t ∧ i = slot) := by
    by_cases hu : u = t
    · subst hu
      simp only [Function.update_self] at hdying
      exact ⟨⟨hi, by rw [hfree]; exact fun h => by cases h⟩, fun h => hdying (by rw [h.2])⟩
    · simp only [Function.update_of_ne hu] at hdying
      exact ⟨⟨hi, hdying⟩, fun h => hu h.1⟩
  refine ⟨hold.1, ?_⟩
  rintro rfl
  exact hold.2 (hI.one u i t slot b' hold.1 hb)

theorem terminate_inv {slot : Nat} {err : List UInt8} (hI : Inv n names s)
    (hadm : Admits s (.terminate t slot err))
    (h : step texts n lpath rpath names limit s (.terminate t slot err) = some s') : Inv n names s' := by
  simp only [step] at h
  split at h
  case h_2 => cases h
  rename_i b hslot
  obtain ⟨hfree, h⟩ := Option.ite_none_right_eq_some.mp h
  rw [← Option.some.inj h]
  have hb : Live s t slot b := ⟨hslot, by rw [hfree]; exact fun h => by cases h⟩
  have hlive : ∀ u i b', Live { s with
      threads := Function.update s.threads t ⟨(s.threads t).list, some slot⟩ } u i b' →
      Live s u i b' ∧ b' ≠ b := fun _ _ _ => live_terminating hI hfree hb
  have haim : ∀ c, Aimed n names s c → Aimed n names { s with
      threads := Function.update s.threads t ⟨(s.threads t).list, some slot⟩ } c :=
    fun c hc => hc.less fun u i b' hi => (hlive u i b' hi).1
  have herr : ∀ b', b' ≠ b → Flag (saveErr b (some err) s.disk) b' hsErrExt → Flag s.disk b' hsErrExt :=
    fun _ => saveErr_err
  have hoff : ∀ b', Flag (saveErr b (some err) s.disk) b' hsOffExt → Flag s.disk b' hsOffExt :=
    fun _ => saveErr_off
  have hexclusive : Exclusive (saveErr b (some err) s.disk) := saveErr_exclusive hI.exclusive
  refine ⟨fun u i b' hb' => ?_,
    fun u i u' j b' hi hj => hI.one u i u' j b' (hlive u i b' hi).1 (hlive u' j b' hj).1,
    fun u i b' hi => hI.found u i b' (hlive u i b' hi).1,
    fun u i b' hi hflag => hI.off u i b' (hlive u i b' hi).1 (hoff b' hflag),
    fun u i b' hi hflag => hI.err u i b' (hlive u i b' hi).1 (herr b' (hlive u i b' hi).2 hflag),
    hexclusive, fun c hc => ?_, fun c ret hc => ?_, fun c hc => ?_, fun c hc => ?_⟩
  · simp only [list_terminating] at hb'
    exact hI.known u i b' hb'
  · have hc' := haim c (hI.checked c hc)
    exact ⟨hc'.config, hc'.known, hc'.aim⟩
  · obtain ⟨hold, hret⟩ := hI.processed c ret hc
    have hc' := haim c hold
    exact ⟨⟨hc'.config, hc'.known, hc'.aim⟩, hret⟩
  · refine (hI.clean c hc).imp id fun hclean hflag => hclean (herr _ ?_ hflag)
    rintro rfl
    rcases hc with hc | hc
    · exact hadm c hc hslot
    · exact (hI.removed c hc).2.2 t slot hb
  · obtain ⟨hconfig, hknown, hgone⟩ := hI.removed c hc
    exact ⟨hconfig, hknown, fun u i hi => hgone u i (hlive u i _ hi).1⟩

theorem leave_inv (hI : Inv n names s)
    (h : step texts n lpath rpath names limit s (.leave t) = some s') : Inv n names s' := by
  simp only [step] at h
  split at h
  case h_2 => cases h
  rename_i slot hdying
  cases h
  have hlist : ∀ (u i : Nat) b, (Function.update s.threads t ⟨(s.threads t).list.set slot none, none⟩ u).list[i]? =
      some (some b) → (s.threads u).list[i]? = some (some b) ∧ ¬(u = t ∧ i = slot) := by
    intro u i b hb
    by_cases hu : u = t
    · subst hu
      rw [Function.update_self] at hb
      obtain ⟨hi, hb⟩ := Slots.getElem?_clear.mp hb
      exact ⟨hb, fun h => hi h.2⟩
    · rw [Function.update_of_ne hu] at hb
      exact ⟨hb, fun h => hu h.1⟩
  refine hI.less (fun u i b hb => (hlist u i b hb).1) (fun u i b hi => ?_) (Fewer.refl _) rfl rfl
  obtain ⟨hb, hnot⟩ := hlist u i b hi.1
  refine ⟨hb, fun h => ?_⟩
  by_cases hu : u = t
  · subst hu
    rw [hdying] at h
    exact hnot ⟨rfl, (Option.some.inj h).symm⟩
  · exact hi.2 (by simpa only [Function.update_of_ne hu] using h)

/-! ## The start of a process -/

theorem Exclusive.prune {d : FileSystem} (h : Exclusive d) : Exclusive (hsPruneErr d) := by
  have hother : ∀ b ext, ext.length = AnalysisReload.hsExtLen → ext ≠ hsErrExt →
      hsPruneErr d (.run, b ++ ext) = d (.run, b ++ ext) := by
    intro b ext hlen hne
    simp only [hsPruneErr, DynamicLoad.not_hasExt hlen DynamicLoad.length_err hne, Bool.false_eq_true,
      if_false]
  intro b hb hflag
  rw [hother b _ DynamicLoad.length_cfg DynamicLoad.cfg_ne_err] at hb
  exact h b hb (hflag.congr (hother b _ DynamicLoad.length_off DynamicLoad.off_ne_errExt))

/-- No instance runs. -/
theorem empty_inv {d : FileSystem} {rtc : RtcFiles} (hd : Exclusive d) :
    Inv n names ⟨d, rtc, fun _ => ⟨[], none⟩, .idle⟩ := by
  have hnone : ∀ t i b, ¬Live ⟨d, rtc, fun _ => ⟨[], none⟩, .idle⟩ t i b := by
    rintro t i b ⟨hb, -⟩
    cases hb
  refine inv_of_idle rfl (fun t i b hb => ?_) (fun t i t' j b hi => absurd hi (hnone t i b))
    (fun t i b hi => absurd hi (hnone t i b)) (fun t i b hi => absurd hi (hnone t i b))
    (fun t i b hi => absurd hi (hnone t i b)) hd
  cases hb

theorem not_flag_prune {d : FileSystem} {b : List Char} (hb : b ≠ []) : ¬Flag (hsPruneErr d) b hsErrExt := by
  intro h
  simp only [Flag, hsFileExists, hsPruneErr, DynamicLoad.hasExt_append hb, if_true] at h
  cases h

/-- What is still to be loaded does not run. -/
def Pending (names : Naming) (s : State) (cs : List Boot) : Prop :=
  ∀ c ∈ cs, hsHasExt c.fn hsCfgExt = true → Absent names s c.fn

/-- Another configuration stays absent. -/
theorem Absent.start {fn' : List Char} {tid : Nat} {o : Outcome} (h : Absent names s fn')
    (hne : baseOf fn' ≠ baseOf fn) : Absent names (startPlugin texts n fn tid o s) fn' := by
  unfold startPlugin
  split
  · exact h
  · rename_i thread hthread
    cases o with
    | created err =>
      refine ⟨h.cfg, h.known, ?_, fun hflag => h.err (saveErr_err hne hflag)⟩
      rintro t i ⟨hi, hdying⟩
      by_cases ht : t = thread % n
      · subst ht
        simp only [Function.update_self] at hi hdying
        rcases getElem_added.mp hi with ⟨-, hb⟩ | hi
        · exact hne hb
        · exact h.gone _ i ⟨hi, hdying⟩
      · simp only [Function.update_of_ne ht] at hi hdying
        exact h.gone t i ⟨hi, hdying⟩
    | failed rtc err => exact ⟨h.cfg, h.known, h.gone, fun hflag => h.err (saveErr_err hne hflag)⟩

theorem startPlugin_phase {tid : Nat} {o : Outcome} : (startPlugin texts n fn tid o s).phase = s.phase := by
  unfold startPlugin
  split
  · rfl
  · cases o <;> rfl

theorem boots_inv {cs : List Boot} (hI : Inv n names s) (hphase : s.phase = .idle)
    (hnodup : (cs.map Boot.fn).Nodup) (hpending : Pending names s cs)
    (hquiet : ∀ c ∈ cs, c.outcome.quiet) : Inv n names (cs.foldl (boot texts n) s) := by
  induction cs generalizing s with
  | nil => exact hI
  | cons c cs ih =>
    obtain ⟨hnot, hnodup⟩ := List.nodup_cons.mp hnodup
    have hrest : ∀ c' ∈ cs, c'.outcome.quiet := fun c' hc' => hquiet c' (List.mem_cons_of_mem _ hc')
    have hpending' : Pending names s cs := fun c' hc' => hpending c' (List.mem_cons_of_mem _ hc')
    rw [List.foldl_cons, boot]
    split
    · rename_i hcfg
      have ha := hpending c List.mem_cons_self hcfg
      refine ih (start_inv hI hphase ha (hquiet c List.mem_cons_self)) (startPlugin_phase.trans hphase) hnodup
        (fun c' hc' hcfg' => (hpending' c' hc' hcfg').start fun hbase => hnot ?_) hrest
      rw [← DynamicLoad.baseOf_cfg hcfg, ← hbase, DynamicLoad.baseOf_cfg hcfg']
      exact List.mem_map.mpr ⟨c', hc', rfl⟩
    · exact ih hI hphase hnodup hpending' hrest

theorem baseOf_ne_nil (h : hsHasExt fn hsCfgExt = true) : baseOf fn ≠ [] := by
  intro hnil
  have hlen := congrArg List.length (DynamicLoad.baseOf_cfg h)
  rw [hnil, List.nil_append] at hlen
  simp only [hsHasExt, hlen, lt_irrefl, decide_false, Bool.false_and, Bool.false_eq_true] at h

theorem startup_inv {cs : List Boot} {d : FileSystem} {rtc : RtcFiles} (hd : Exclusive d)
    (hnodup : (cs.map Boot.fn).Nodup) (hplain : ∀ c ∈ cs, Plain lpath rpath names c.fn)
    (hquiet : ∀ c ∈ cs, c.outcome.quiet) :
    Inv n names (hsLoadAnalysisStartup texts n cs d rtc) := by
  refine boots_inv (empty_inv hd.prune) rfl hnodup (fun c hc hcfg => ?_) hquiet
  refine ⟨hcfg, (hplain c hc).known (by rw [isConfig, hcfg, Bool.true_or]), ?_,
    not_flag_prune (baseOf_ne_nil hcfg)⟩
  rintro t i ⟨hb, -⟩
  cases hb

theorem step_inv (hI : Inv n names s) (hadm : Admits s e)
    (h : step texts n lpath rpath names limit s e = some s') : Inv n names s' := by
  cases e with
  | deliver fn f =>
    obtain ⟨-, h⟩ := Option.ite_none_right_eq_some.mp h
    rw [← Option.some.inj h]
    exact hI.less (fun _ _ _ h => h) (fun _ _ _ h => h) fewer_load rfl rfl
  | processLua fails uses fn =>
    obtain ⟨⟨-, hlua, -⟩, h⟩ := Option.ite_none_right_eq_some.mp h
    rw [← Option.some.inj h]
    have hsame : (processLua n fails uses fn s).threads = s.threads ∧
        (processLua n fails uses fn s).rtc = s.rtc ∧ (processLua n fails uses fn s).phase = s.phase := by
      unfold processLua
      split <;> exact ⟨rfl, rfl, rfl⟩
    obtain ⟨hthreads, hrtc, hphase⟩ := hsame
    refine hI.less (fun t i b hb => ?_) (fun t i b hi => ?_) (fewer_processLua hlua) hrtc hphase
    · rwa [hthreads] at hb
    · rwa [Live, hthreads] at hi
  | check fails util fn => exact check_inv hI h
  | process fails => exact process_inv hI h
  | remove => exact remove_inv hI h
  | create o => exact create_inv hI hadm h
  | terminate t slot err => exact terminate_inv hI hadm h
  | leave t => exact leave_inv hI h
  | restart cs =>
    obtain ⟨⟨hnodup, hplain⟩, h⟩ := Option.ite_none_right_eq_some.mp h
    rw [← Option.some.inj h]
    exact startup_inv hI.exclusive hnodup hplain hadm

end

/-- A run directory ahead of the first process. -/
structure RunDir where
  disk : FileSystem
  exclusive : Exclusive disk

def start (r : RunDir) (rtc : RtcFiles) : State := ⟨r.disk, rtc, fun _ => ⟨[], none⟩, .idle⟩

instance (s : State) (t i : Nat) (b : List Char) : Decidable (Live s t i b) :=
  inferInstanceAs (Decidable (_ ∧ _))

instance (o : Outcome) : Decidable o.quiet :=
  match o with
  | .created short err => inferInstanceAs (Decidable (short = none ∧ err = none))
  | .failed _ _ => isTrue trivial

instance (s : State) (e : Event) : Decidable (Admits s e) :=
  match e with
  | .create o => inferInstanceAs (Decidable o.quiet)
  | .restart cs => inferInstanceAs (Decidable (∀ c ∈ cs, c.outcome.quiet))
  | .terminate t slot _ =>
    match hphase : s.phase with
    | .processed c ret =>
      if h : ret = 1 ∧ (s.threads t).list[slot]? = some (some (baseOf c.fn)) then
        isFalse fun hadm => hadm c (by rw [hphase, h.1]) h.2
      else
        isTrue fun c' hc' hslot => by
          rw [hphase] at hc'
          cases hc'
          exact h ⟨rfl, hslot⟩
    | .idle | .checked _ | .removed _ => isTrue fun c hc => by rw [hphase] at hc; cases hc
  | .deliver _ _ | .processLua _ _ _ | .check _ _ _ | .process _ | .remove | .leave _ => isTrue trivial

/-- Two configurations, `a.cfg` and `b.cfg`, without a thread option. -/
def twoNames : Naming := ⟨[['a'], ['b']], by decide⟩

def anyThread : Texts := ⟨fun _ => none, fun _ => none, fun _ => true⟩

def emptyDir : RunDir := ⟨fun _ => none, fun _ h => absurd rfl h⟩

def aCfg : List Char := "a.cfg".toList

def noFail : Call Path → Bool := fun _ => false

/-- A configuration comes into the load directory and is handled up to the deletion of the old flags. -/
def comes (fn : List Char) : List Event :=
  [.deliver fn ⟨[], true⟩, .check noFail (fun _ => 0) fn, .process noFail]

def loads (fn : List Char) : List Event := comes fn ++ [.remove, .create (.created none none)]

/-- It terminates while its reload is between the two, and keeps its `.err` file: the next reload takes any
thread. -/
theorem two_instances :
    ¬∀ es, Runs.Always (step anyThread 2 ['l'] ['r'] twoNames 0) (Safe 2) (start emptyDir fun _ => none) es := by
  intro h
  let es := loads aCfg ++ comes aCfg ++
    [.terminate 0 0 [1], .leave 0, .remove, .create (.created none none)] ++ loads aCfg
  let t := (Runs.run (step anyThread 2 ['l'] ['r'] twoNames 0) (start emptyDir fun _ => none) es).get (by decide)
  have hsafe := (h es).run (t := t) (Option.some_get _).symm
  exact absurd (hsafe.one 0 0 1 0 ['a'] (by decide) (by decide)).1 (by decide)

end AnalysisInstances

end Hindsight
