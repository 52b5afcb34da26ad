import Hindsight.RuntimeConfig
import Hindsight.SandboxOptions

/-!
# Hindsight.ThreadPlacement

On which thread an analysis plugin runs. `hs_load_analysis_startup` moves the `.rtc` files of the run
directory to the output directory and goes through the run directory twice: it counts the plugins whose
thread is known, and then places all of them, a plugin without a known thread where the fewest are. The
first pass runs the whole file (`luaL_dofile`), the second the text up to a zero byte (`luaL_dostring`).
`get_thread_id` decides about a configuration that is loaded while the daemon runs. A character stands for
one byte.

* `getTid`, `getPreviousTid`: the thread in a configuration and in the `.rtc` file of an earlier run.
* `hsLoadAnalysisStartup`: the move and the two passes.
* `Balanced`: plugins with a known thread are where they belong, the others are spread evenly.
* `CountsAlike`: the first pass is wrong about all threads by as much; `countsAlike_of_plain` has it right.
* `startup_balanced`: then the placing is balanced, unless a path is too long for the move.
* `getThreadId`, `matches_iff`: when a load is refused only for a plugin that runs on another thread.
-/

namespace Hindsight

namespace ThreadPlacement

open Config LuaApi SandboxOptions

/-! ## The thread in a file -/

/-- `(unsigned)lua_tointeger`; `cast` converts what is outside of a 64-bit integer. -/
def toUnsigned (cast : Number → Nat) : Number → Nat
  | .finite q =>
    if -(2 ^ 63) ≤ q ∧ q < 2 ^ 63 then (Int.tdiv q.num q.den % 2 ^ 32).toNat
    else cast (.finite q) % 2 ^ 32
  | x => cast x % 2 ^ 32

/-- The variable `thread` of a chunk that could be run. -/
def threadOption : Except String State → Value
  | .ok L => L.global "thread"
  | .error _ => .nil

/-- `UINT_MAX` stands for no thread. -/
def threadNumber (cast : Number → Nat) : Value → Nat
  | .number x => toUnsigned cast x
  | _ => uintMax

/-- `get_tid`; the chunk of a file that is not there is an error. -/
def getTid (cast : Number → Nat) (path name : String) (chunk : Except String State) : Nat :=
  match hsGetFqfn path name hsMaxPath with
  | none => uintMax
  | some _ => threadNumber cast (threadOption chunk)

/-- The `.rtc` file of the configuration `name`. -/
def rtcName (name : String) : String :=
  "analysis." ++ String.ofList (name.toList.take (name.length - hsExtLen)) ++ ".rtc"

/-- The files of the output directory by name. -/
abbrev RtcFiles := String → Except String State

/-- `get_previous_tid`. -/
def getPreviousTid (cast : Number → Nat) (opath : String) (rtc : RtcFiles) (name : String) : Nat :=
  getTid cast opath (rtcName name) (rtc (rtcName name))

/-! ## Placing -/

/-- The number of plugins for each thread. -/
abbrev Counts := Nat → Nat

def bump (counts : Counts) (i : Nat) : Counts := Function.update counts i (counts i + 1)

/-- The scan for the thread with the fewest plugins, from `minCnt` and `thread` on; `none` is `INT_MAX`, a
count is never as high. -/
def leastLoaded (counts : Counts) : List Nat → Option Nat → Nat → Nat
  | [], _, thread => thread
  | i :: is, minCnt, thread =>
    if counts i = 0 then i
    else if ∀ m ∈ minCnt, counts i < m then leastLoaded counts is (some (counts i)) i
    else leastLoaded counts is minCnt thread

/-- An entry of a directory, with the content of a file that can be read. -/
structure Entry where
  name : String
  content : Option String

/-- The names in a directory are distinct. -/
structure Directory where
  entries : List Entry
  nodup : (entries.map Entry.name).Nodup

def isCfg (e : Entry) : Bool := hsHasExt e.name hsCfgExt

def isRtc (e : Entry) : Bool := hsHasExt e.name RuntimeConfig.hsRtcExt

/-- A text without a zero byte and without the line that `luaL_dofile` skips. -/
def Plain (text : String) : Prop := '\x00' ∉ text.toList ∧ text.toList.head? ≠ some '#'

/-- The interpreter, from a string and from a file with a content. -/
structure Lua where
  dostring : String → Except String State
  dofile : String → Except String State
  plain : ∀ text, Plain text → threadOption (dofile text) = threadOption (dostring text)

/-- What becomes of a `.rtc` file of the run directory: the new file is the old one, or one with whatever the
copying left in it, or is not touched. -/
inductive Move where
  | renamed
  | copied (chunk : Except String State)
  | failed

/-- What placing depends on. `created`: the `.rtc` file `create_analysis_plugin` writes for a configuration,
if it gets so far. -/
structure Setup where
  X : Env
  cast : Number → Nat
  cfg : Config.HsConfig
  lua : Lua
  moves : String → Move
  created : String → HsSandboxConfig → Option (Except String State)

namespace Setup

variable (S : Setup)

def threads : Nat := S.cfg.analysisThreads

def dir : String := S.cfg.runPathAnalysis.getD ""

def outputDir : String := S.cfg.outputPath.getD ""

/-- The whole file. -/
def wholeChunk (e : Entry) : Except String State :=
  match e.content with
  | some text => S.lua.dofile text
  | none => .error "cannot read"

/-- The file as `hs_load_sandbox_config` reads it. -/
def file (e : Entry) : SandboxFile where
  text := e.content
  chunk :=
    match e.content with
    | some text => S.lua.dostring (cString text)
    | none => .error "cannot read"

def previous (rtc : RtcFiles) (name : String) : Nat := getPreviousTid S.cast S.outputDir rtc name

/-- The name a `.rtc` file of the run directory is given in the output directory. -/
def movedName (e : Entry) : String := "analysis." ++ e.name

/-- One file of the move; a path that is too long ends the process. -/
def migrateStep (rtc : RtcFiles) (e : Entry) : Option RtcFiles :=
  if isRtc e then
    match hsGetFqfn S.dir e.name hsMaxPath, hsGetFqfn S.outputDir (movedName e) hsMaxPath with
    | some _, some _ =>
      match S.moves e.name with
      | .renamed => some (Function.update rtc (movedName e) (S.wholeChunk e))
      | .copied chunk => some (Function.update rtc (movedName e) chunk)
      | .failed => some rtc
    | _, _ => none
  else some rtc

/-- The `.rtc` files of the run directory go to the output directory. -/
def migrate : RtcFiles → List Entry → Option RtcFiles
  | rtc, [] => some rtc
  | rtc, e :: es => (S.migrateStep rtc e).bind fun rtc => migrate rtc es

/-- The thread the first pass finds for a configuration. -/
def countedTid (rtc : RtcFiles) (e : Entry) : Nat :=
  let tid := getTid S.cast S.dir e.name (S.wholeChunk e)
  if tid = uintMax then S.previous rtc e.name else tid

/-- The first pass. -/
def countProvisioned (rtc : RtcFiles) : List Entry → Counts → Counts
  | [], counts => counts
  | e :: es, counts =>
    if isCfg e ∧ S.countedTid rtc e ≠ uintMax then
      countProvisioned rtc es (bump counts (S.countedTid rtc e % S.threads))
    else countProvisioned rtc es counts

/-- The second pass: the counts, the `.rtc` files and the plugins in the order they were placed. -/
structure Placing where
  counts : Counts
  rtc : RtcFiles
  placed : List (String × HsSandboxConfig)

/-- The thread of a configuration that was loaded. -/
def chooseThread (s : Placing) (name : String) (sbc : HsSandboxConfig) : HsSandboxConfig × Counts :=
  if sbc.thread = uintMax then
    let prev := S.previous s.rtc name
    if prev = uintMax then
      let thread := leastLoaded s.counts (List.range S.threads) none uintMax
      ({ sbc with thread := thread }, bump s.counts (thread % S.threads))
    else ({ sbc with thread := prev }, s.counts)
  else (sbc, s.counts)

def writeRtc (rtc : RtcFiles) (name : String) : Option (Except String State) → RtcFiles
  | none => rtc
  | some chunk => Function.update rtc (rtcName name) chunk

def placeStep (s : Placing) (e : Entry) : Option Placing :=
  match hsLoadSandboxConfig S.X S.dir e.name (S.file e) (some S.cfg.apd) .analysis with
  | none => none
  | some (.error _) => some s
  | some (.ok sbc) =>
    let r := S.chooseThread s e.name sbc
    some
      { counts := r.2
        rtc := writeRtc s.rtc e.name (S.created e.name r.1)
        placed := s.placed ++ [(e.name, r.1)] }

def placeAll : Placing → List Entry → Option Placing
  | s, [] => some s
  | s, e :: es => (S.placeStep s e).bind fun s' => placeAll s' es

/-- `hs_load_analysis_startup`. -/
def hsLoadAnalysisStartup (rtc : RtcFiles) (d : Directory) : Option Placing :=
  (S.migrate rtc d.entries).bind fun rtc =>
    S.placeAll ⟨S.countProvisioned rtc d.entries fun _ => 0, rtc, []⟩ d.entries

/-- The thread `add_to_analysis_plugins` puts a plugin on. -/
def threadOf (p : String × HsSandboxConfig) : Nat := p.2.thread % S.threads

/-- How many of the plugins are on a thread. -/
def load (placed : List (String × HsSandboxConfig)) (i : Nat) : Nat :=
  placed.countP fun p => S.threadOf p == i

/-- The thread option of a configuration, as it is loaded. -/
def optionOf (e : Entry) : Value := threadOption (S.file e).chunk

/-- Every configuration of the directory is placed: one with a thread option `t` on thread `t % n`, one
without it that ran on `r` before on thread `r % n`, any other on a thread with at most one plugin more than
any thread. -/
def Balanced (rtc : RtcFiles) (d : Directory) : Prop :=
  ∃ moved s, S.migrate rtc d.entries = some moved ∧ S.hsLoadAnalysisStartup rtc d = some s ∧
    s.placed.map Prod.fst = (d.entries.filter isCfg).map Entry.name ∧
    ∀ e ∈ d.entries, ∀ p ∈ s.placed, p.1 = e.name →
      (∀ t : Nat, S.optionOf e = .number (.finite t) → S.threadOf p = t % S.threads) ∧
      (S.optionOf e = .nil → S.previous moved e.name ≠ uintMax →
        S.threadOf p = S.previous moved e.name % S.threads) ∧
      (S.optionOf e = .nil → S.previous moved e.name = uintMax →
        S.threadOf p < S.threads ∧
        ∀ i < S.threads, S.load s.placed (S.threadOf p) ≤ S.load s.placed i + 1)

/-- The thread of a configuration that has an option, or ran before. -/
def knownTid (rtc : RtcFiles) (e : Entry) : Nat :=
  let tid := threadNumber S.cast (S.optionOf e)
  if tid = uintMax then S.previous rtc e.name else tid

/-- A configuration whose thread is `i` by `tid`. -/
def provisionedOn (tid : Entry → Nat) (i : Nat) (e : Entry) : Bool :=
  isCfg e && decide (tid e ≠ uintMax) && tid e % S.threads == i

/-- What the first pass counts on the threads is off by `more` from what belongs there. -/
def CountedWith (rtc : RtcFiles) (es : List Entry) (more : ℤ) : Prop :=
  ∀ i < S.threads, (es.countP (S.provisionedOn (S.countedTid rtc) i) : ℤ) =
    es.countP (S.provisionedOn (S.knownTid rtc) i) + more

/-- The first pass counts as many configurations too many, or too few, on every thread. -/
def CountsAlike (rtc : RtcFiles) (d : Directory) : Prop :=
  ∀ moved ∈ S.migrate rtc d.entries, ∃ more, S.CountedWith moved d.entries more

/-- The `.rtc` files of the directory can be named in both directories. -/
def MigrationFits (es : List Entry) : Prop :=
  ∀ e ∈ es, isRtc e = true → (hsGetFqfn S.dir e.name hsMaxPath).isSome = true ∧
    (hsGetFqfn S.outputDir (movedName e) hsMaxPath).isSome = true

end Setup

/-! ## The thread with the fewest plugins -/

section

variable {counts : Counts} {n : Nat}

theorem leastLoaded_from (counts : Counts) (is : List Nat) (thread : Nat) :
    let r := leastLoaded counts is (some (counts thread)) thread
    r ∈ thread :: is ∧ ∀ i ∈ thread :: is, counts r ≤ counts i := by
  induction is generalizing thread with
  | nil => exact ⟨List.mem_cons_self, fun i hi => by rw [List.mem_singleton.mp hi]; rfl⟩
  | cons i is ih =>
    simp only [leastLoaded]
    split
    · rename_i hzero
      refine ⟨List.mem_cons_of_mem _ List.mem_cons_self, fun j _ => ?_⟩
      rw [hzero]
      exact Nat.zero_le _
    · split
      · rename_i hlt
        have hlt : counts i < counts thread := hlt _ rfl
        obtain ⟨hmem, hle⟩ := ih i
        refine ⟨List.mem_cons_of_mem _ hmem, fun j hj => ?_⟩
        rcases List.mem_cons.mp hj with rfl | hj
        · exact (hle i List.mem_cons_self).trans hlt.le
        · exact hle j hj
      · rename_i hge
        have hge : counts thread ≤ counts i := by
          by_contra hlt
          refine hge fun m hm => ?_
          cases hm
          omega
        obtain ⟨hmem, hle⟩ := ih thread
        constructor
        · rcases List.mem_cons.mp hmem with hmem | hmem
          · rw [hmem]
            exact List.mem_cons_self
          · exact List.mem_cons_of_mem _ (List.mem_cons_of_mem _ hmem)
        · intro j hj
          rcases List.mem_cons.mp hj with rfl | hj
          · exact hle j List.mem_cons_self
          · rcases List.mem_cons.mp hj with rfl | hj
            · exact (hle thread List.mem_cons_self).trans hge
            · exact hle j (List.mem_cons_of_mem _ hj)

/-- The scan finds a thread with the fewest plugins. -/
theorem leastLoaded_spec (counts : Counts) (hn : 1 ≤ n) (thread : Nat) :
    let r := leastLoaded counts (List.range n) none thread
    r < n ∧ ∀ i < n, counts r ≤ counts i := by
  obtain ⟨m, rfl⟩ : ∃ m, n = m + 1 := ⟨n - 1, by omega⟩
  by_cases hzero : counts 0 = 0
  · have hscan : leastLoaded counts (List.range (m + 1)) none thread = 0 := by
      rw [List.range_succ_eq_map, leastLoaded, if_pos hzero]
    rw [hscan]
    refine ⟨Nat.succ_pos m, fun i _ => ?_⟩
    rw [hzero]
    exact Nat.zero_le _
  · have hscan : leastLoaded counts (List.range (m + 1)) none thread =
        leastLoaded counts ((List.range m).map Nat.succ) (some (counts 0)) 0 := by
      rw [List.range_succ_eq_map, leastLoaded, if_neg hzero, if_pos (fun m hm => by cases hm)]
    have h := leastLoaded_from counts ((List.range m).map Nat.succ) 0
    rw [← List.range_succ_eq_map, ← hscan] at h
    simpa only [List.mem_range] using h

/-- The thread is at most one above any thread. -/
def Level (n : Nat) (counts : Counts) (t : Nat) : Prop := t < n ∧ ∀ i < n, counts t ≤ counts i + 1

/-- One more plugin where the fewest are: that thread is level, and the others stay so. -/
theorem Level.place {t : Nat} (hmin : ∀ i < n, counts t ≤ counts i) {u : Nat}
    (h : Level n counts u ∨ u = t ∧ t < n) : Level n (bump counts t) u := by
  have hle : ∀ i, counts i ≤ bump counts t i := by
    intro i
    rw [bump, Function.update_apply]
    split
    · rename_i hi
      rw [hi]
      exact Nat.le_succ _
    · exact Nat.le_refl _
  by_cases hut : u = t
  · have hlt : t < n := h.elim (fun h => hut ▸ h.1) And.right
    subst hut
    refine ⟨hlt, fun i hi => ?_⟩
    have hu : bump counts u u = counts u + 1 := Function.update_self _ _ _
    rw [hu]
    exact Nat.succ_le_succ ((hmin i hi).trans (hle i))
  · obtain ⟨hlt, hlevel⟩ := h.resolve_right fun h => hut h.1
    refine ⟨hlt, fun i hi => ?_⟩
    have hu : bump counts t u = counts u := Function.update_of_ne hut _ _
    rw [hu]
    exact (hlevel i hi).trans (Nat.succ_le_succ (hle i))

end

/-! ## Reading the thread -/

theorem toUnsigned_nat (cast : Number → Nat) {t : Nat} (h : t < 2 ^ 32) :
    toUnsigned cast (.finite t) = t := by
  have hrange : (-(2 ^ 63) : ℚ) ≤ t ∧ (t : ℚ) < 2 ^ 63 := by
    have h0 : (0 : ℚ) ≤ t := Nat.cast_nonneg t
    have h1 : (t : ℚ) < 2 ^ 32 := by exact_mod_cast h
    exact ⟨by linarith, by linarith⟩
  rw [toUnsigned, if_pos hrange, Rat.num_natCast, Rat.den_natCast, Nat.cast_one, Int.tdiv_one]
  omega

/-- A thread option that is absent or an integer below `UINT_MAX`. -/
def ThreadOk (v : Value) : Prop := v = .nil ∨ ∃ t : Nat, t < uintMax ∧ v = .number (.finite t)

theorem hasCfgExt_toList {name : String} (h : hsHasExt name hsCfgExt = true) :
    name.toList = name.toList.take (name.length - hsExtLen) ++ hsCfgExt.toList := by
  have hlen : hsCfgExt.length = hsExtLen := by decide
  simp only [hsHasExt, Bool.and_eq_true, beq_iff_eq, hlen] at h
  conv_lhs => rw [← List.take_append_drop (name.length - hsExtLen) name.toList, h.2]

/-- Two configurations have different `.rtc` files. -/
theorem rtcName_inj {a b : String} (ha : hsHasExt a hsCfgExt = true) (hb : hsHasExt b hsCfgExt = true)
    (h : rtcName a = rtcName b) : a = b := by
  have hlist := congrArg String.toList h
  simp only [rtcName, String.toList_append, String.toList_ofList] at hlist
  have hstem := List.append_cancel_left (List.append_cancel_right hlist)
  rw [← String.toList_inj, hasCfgExt_toList ha, hasCfgExt_toList hb, hstem]

namespace Setup

variable {S : Setup}

/-- The configuration loads without error. -/
def Loads (S : Setup) (e : Entry) : Prop :=
  ∃ sbc, hsLoadSandboxConfig S.X S.dir e.name (S.file e) (some S.cfg.apd) .analysis = some (.ok sbc)

/-- The path of a configuration that loads fits. -/
theorem getTid_of_loads {e : Entry} (h : S.Loads e) (chunk : Except String State) :
    getTid S.cast S.dir e.name chunk = threadNumber S.cast (threadOption chunk) := by
  obtain ⟨sbc, h⟩ := h
  obtain ⟨hpath, -⟩ := hsLoadSandboxConfig_ok h
  obtain ⟨fqfn, hfqfn⟩ := Option.isSome_iff_exists.mp hpath
  rw [getTid, hfqfn]

/-- The thread the second pass loads. -/
theorem thread_of_load {e : Entry} {sbc : HsSandboxConfig}
    (h : hsLoadSandboxConfig S.X S.dir e.name (S.file e) (some S.cfg.apd) .analysis = some (.ok sbc))
    (hthread : ThreadOk (S.optionOf e)) : sbc.thread = threadNumber S.cast (S.optionOf e) := by
  unfold optionOf at hthread ⊢
  generalize S.file e = file at h hthread ⊢
  obtain ⟨text, chunk⟩ := file
  cases chunk with
  | error msg =>
    obtain ⟨-, _, _, _, hchunk, -⟩ := hsLoadSandboxConfig_ok h
    cases hchunk
  | ok L =>
    obtain ⟨source, hloaded⟩ := accepted_loaded h
    have hread := (hloaded.analysis rfl).1
    have hbase := (beforeOptions_eq S.dir e.name source (some S.cfg.apd) .analysis).2.2.1.1
    rw [hbase] at hread
    simp only [threadOption] at hthread ⊢
    rcases hthread with hnil | ⟨t, ht, hnum⟩
    · rw [hnil] at hread ⊢
      rcases hread with hread | ⟨⟨msg, hread⟩, -⟩
      · exact (Except.ok.inj hread).symm
      · cases hread
    · have hmax : uintMax = 2 ^ 32 - 1 := rfl
      have hq : ¬((t : ℚ) < 0 ∨ (uintMax : ℚ) < t) := by
        rw [not_or, not_lt, not_lt]
        exact ⟨Nat.cast_nonneg t, by exact_mod_cast ht.le⟩
      rw [hnum] at hread ⊢
      rw [threadNumber, toUnsigned_nat _ (by omega)]
      simp only [Attempted, readUnsigned, readNumber, if_neg hq] at hread
      rcases hread with hread | ⟨⟨msg, hread⟩, -⟩
      · exact (Except.ok.inj hread).symm
      · cases hread

theorem load_other {e : Entry} (h : isCfg e = false) :
    hsLoadSandboxConfig S.X S.dir e.name (S.file e) (some S.cfg.apd) .analysis = some (.error none) := by
  rw [isCfg] at h
  simp only [hsLoadSandboxConfig, h]

/-! ## The move -/

theorem migrateStep_isSome (rtc : RtcFiles) (e : Entry) :
    (S.migrateStep rtc e).isSome = true ↔
      (isRtc e = true → (hsGetFqfn S.dir e.name hsMaxPath).isSome = true ∧
        (hsGetFqfn S.outputDir (movedName e) hsMaxPath).isSome = true) := by
  unfold migrateStep
  by_cases hrtc : isRtc e = true
  · rw [if_pos hrtc, forall_prop_of_true hrtc]
    cases hsGetFqfn S.dir e.name hsMaxPath with
    | none => simp
    | some ofn =>
      cases hsGetFqfn S.outputDir (movedName e) hsMaxPath with
      | none => simp
      | some nfn => cases S.moves e.name <;> simp
  · rw [if_neg hrtc]
    exact iff_of_true rfl fun h => absurd h hrtc

/-- The move is made just if all paths fit. -/
theorem migrate_isSome (rtc : RtcFiles) (es : List Entry) :
    (S.migrate rtc es).isSome = true ↔ S.MigrationFits es := by
  induction es generalizing rtc with
  | nil => exact iff_of_true rfl fun e he => absurd he List.not_mem_nil
  | cons e es ih =>
    rw [migrate, MigrationFits, List.forall_mem_cons, ← migrateStep_isSome (S := S) rtc e]
    cases S.migrateStep rtc e with
    | none => exact iff_of_false Bool.false_ne_true fun h => Bool.false_ne_true h.1
    | some moved =>
      rw [Option.bind_some, ih moved, and_iff_right Option.isSome_some]
      rfl

/-! ## The first pass -/

theorem countProvisioned_eq (rtc : RtcFiles) (es : List Entry) (counts : Counts) (i : Nat) :
    S.countProvisioned rtc es counts i =
      counts i + es.countP (S.provisionedOn (S.countedTid rtc) i) := by
  induction es generalizing counts with
  | nil => rfl
  | cons e es ih =>
    rw [countProvisioned, List.countP_cons, provisionedOn]
    split
    · rename_i h
      rw [ih, bump, Function.update_apply]
      simp only [h.1, h.2, ne_eq, not_false_eq_true, decide_true, Bool.and_self, Bool.true_and, beq_iff_eq]
      by_cases hi : i = S.countedTid rtc e % S.threads
      · rw [if_pos hi, if_pos hi.symm, hi]
        omega
      · rw [if_neg hi, if_neg (Ne.symm hi)]
        omega
    · rename_i h
      rw [ih, if_neg]
      · rfl
      · intro hp
        simp only [Bool.and_eq_true, decide_eq_true_eq] at hp
        exact h hp.1

/-- A text without a zero byte is read to its end. -/
theorem cString_plain {text : String} (h : Plain text) : cString text = text := by
  rw [cString, List.takeWhile_eq_self_iff.mpr fun c hc => bne_iff_ne.mpr ?_, String.ofList_toList]
  rintro rfl
  exact h.1 hc

/-- Both passes see the thread of a configuration with a plain text. -/
theorem countedTid_of_plain {rtc : RtcFiles} {e : Entry} (hload : S.Loads e)
    (hplain : ∀ text ∈ e.content, Plain text) : S.countedTid rtc e = S.knownTid rtc e := by
  have hoption : threadOption (S.wholeChunk e) = S.optionOf e := by
    unfold wholeChunk optionOf file
    cases h : e.content with
    | none => rfl
    | some text =>
      have htext : Plain text := hplain text h
      dsimp only
      rw [cString_plain htext]
      exact S.lua.plain text htext
  rw [countedTid, getTid_of_loads hload, hoption, knownTid]

/-- Where every configuration has a plain text the first pass counts right. -/
theorem countsAlike_of_plain {rtc : RtcFiles} {d : Directory}
    (hload : ∀ e ∈ d.entries, isCfg e = true → S.Loads e)
    (hplain : ∀ e ∈ d.entries, isCfg e = true → ∀ text ∈ e.content, Plain text) :
    S.CountsAlike rtc d := by
  refine fun moved _ => ⟨0, fun i _ => ?_⟩
  rw [add_zero, Nat.cast_inj]
  refine List.countP_congr fun e he => ?_
  unfold provisionedOn
  by_cases hcfg : isCfg e = true
  · rw [countedTid_of_plain (hload e he hcfg) (hplain e he hcfg)]
  · rw [Bool.not_eq_true] at hcfg
    rw [hcfg, Bool.false_and, Bool.false_and, Bool.false_and, Bool.false_and]

/-- With one thread there is no other it could be wrong about. -/
theorem countsAlike_of_single {rtc : RtcFiles} {d : Directory} (h : S.threads = 1) : S.CountsAlike rtc d := by
  intro moved _
  refine ⟨d.entries.countP (S.provisionedOn (S.countedTid moved) 0) -
    d.entries.countP (S.provisionedOn (S.knownTid moved) 0), fun i hi => ?_⟩
  obtain rfl : i = 0 := by omega
  exact (add_sub_cancel _ _).symm

/-! ## The second pass -/

/-- What the second pass does with a configuration: a known thread is kept, otherwise it is one with the
fewest plugins. -/
theorem placeStep_cfg {s : Placing} {rtc : RtcFiles} {e : Entry} (hload : S.Loads e)
    (hthread : ThreadOk (S.optionOf e)) (hrtc : s.rtc (rtcName e.name) = rtc (rtcName e.name)) :
    ∃ sbc chunk counts, S.placeStep s e =
        some ⟨counts, writeRtc s.rtc e.name chunk, s.placed ++ [(e.name, sbc)]⟩ ∧
      (S.knownTid rtc e ≠ uintMax → sbc.thread = S.knownTid rtc e ∧ counts = s.counts) ∧
      (S.knownTid rtc e = uintMax →
        let t := leastLoaded s.counts (List.range S.threads) none uintMax
        sbc.thread = t ∧ counts = bump s.counts (t % S.threads)) := by
  obtain ⟨sbc, hload⟩ := hload
  have hread := thread_of_load hload hthread
  have hprev : S.previous s.rtc e.name = S.previous rtc e.name := by
    rw [previous, previous, getPreviousTid, getPreviousTid, hrtc]
  simp only [placeStep, hload]
  refine ⟨_, _, _, rfl, ?_⟩
  rw [knownTid, ← hread, ← hprev]
  by_cases hopt : sbc.thread = uintMax
  · by_cases hp : S.previous s.rtc e.name = uintMax
    · simp only [chooseThread, if_pos hopt, if_pos hp]
      exact ⟨fun hne => absurd hp hne, fun _ => ⟨trivial, trivial⟩⟩
    · simp only [chooseThread, if_pos hopt, if_neg hp]
      exact ⟨fun _ => ⟨trivial, trivial⟩, fun heq => absurd heq hp⟩
  · simp only [chooseThread, if_neg hopt]
    exact ⟨fun _ => ⟨trivial, trivial⟩, fun heq => absurd heq hopt⟩

/-- A plugin is where it belongs: on its known thread, or on one that is level. -/
structure Placed (S : Setup) (rtc : RtcFiles) (counts : Counts) (e : Entry)
    (p : String × HsSandboxConfig) : Prop where
  known : S.knownTid rtc e ≠ uintMax → p.2.thread = S.knownTid rtc e
  level : S.knownTid rtc e = uintMax → Level S.threads counts (S.threadOf p)

/-- The second pass after the entries `done`, with `todo` to come, when the first is off by `more`. -/
structure Inv (S : Setup) (rtc : RtcFiles) (more : ℤ) (done todo : List Entry) (s : Placing) : Prop where
  rtc_eq : ∀ e ∈ todo, isCfg e = true → s.rtc (rtcName e.name) = rtc (rtcName e.name)
  names : s.placed.map Prod.fst = (done.filter isCfg).map Entry.name
  counts : ∀ i < S.threads, (s.counts i : ℤ) =
    S.load s.placed i + todo.countP (S.provisionedOn (S.knownTid rtc) i) + more
  placed : ∀ p ∈ s.placed, ∃ e ∈ done, e.name = p.1 ∧ S.Placed rtc s.counts e p

theorem load_append (placed : List (String × HsSandboxConfig)) (p : String × HsSandboxConfig) (i : Nat) :
    S.load (placed ++ [p]) i = S.load placed i + if S.threadOf p = i then 1 else 0 := by
  simp only [load, List.countP_append, List.countP_cons, List.countP_nil, beq_iff_eq, Nat.zero_add]

/-- Writing one `.rtc` file leaves those of the other configurations. -/
theorem writeRtc_other {rtc : RtcFiles} {chunk : Option (Except String State)} {e f : Entry}
    (he : isCfg e = true) (hf : isCfg f = true) (hne : f.name ≠ e.name) :
    writeRtc rtc e.name chunk (rtcName f.name) = rtc (rtcName f.name) := by
  cases chunk with
  | none => rfl
  | some chunk =>
    have hfile : rtcName f.name ≠ rtcName e.name := fun h => hne (rtcName_inj hf he h)
    rw [writeRtc, Function.update_of_ne hfile]

/-- The entry of another kind is passed over. -/
theorem inv_other {rtc : RtcFiles} {more : ℤ} {done todo : List Entry} {e : Entry} {s : Placing}
    (hI : S.Inv rtc more done (e :: todo) s) (he : isCfg e = false) :
    S.placeStep s e = some s ∧ S.Inv rtc more (done ++ [e]) todo s := by
  refine ⟨by simp only [placeStep, load_other he], ?_, ?_, ?_, ?_⟩
  · exact fun f hf => hI.rtc_eq f (List.mem_cons_of_mem _ hf)
  · rw [hI.names, List.filter_append, List.filter_cons_of_neg (by simp [he]), List.filter_nil,
      List.append_nil]
  · intro i hi
    have hnot : ¬S.provisionedOn (S.knownTid rtc) i e = true := by simp [provisionedOn, he]
    rw [hI.counts i hi, List.countP_cons_of_neg hnot]
  · intro p hp
    obtain ⟨f, hf, hname, hplaced⟩ := hI.placed p hp
    exact ⟨f, List.mem_append_left _ hf, hname, hplaced⟩

/-- Where the plugin of the next configuration goes, and what that does to the counts. -/
structure Joins (S : Setup) (rtc : RtcFiles) (more : ℤ) (e : Entry) (todo : List Entry) (s : Placing)
    (p : String × HsSandboxConfig) (counts : Counts) : Prop where
  count : ∀ i < S.threads, (counts i : ℤ) =
    S.load (s.placed ++ [p]) i + todo.countP (S.provisionedOn (S.knownTid rtc) i) + more
  placed : S.Placed rtc counts e p
  level : ∀ t, Level S.threads s.counts t → Level S.threads counts t

/-- A plugin without a known thread goes where the fewest are. -/
theorem joins_new {rtc : RtcFiles} {more : ℤ} {done todo : List Entry} {e : Entry} {s : Placing}
    {sbc : HsSandboxConfig} (hn : 1 ≤ S.threads) (hI : S.Inv rtc more done (e :: todo) s)
    (hk : S.knownTid rtc e = uintMax)
    (hsbc : sbc.thread = leastLoaded s.counts (List.range S.threads) none uintMax) :
    S.Joins rtc more e todo s (e.name, sbc) (bump s.counts (sbc.thread % S.threads)) := by
  obtain ⟨hlt, hmin⟩ := leastLoaded_spec s.counts hn uintMax
  rw [← hsbc] at hlt hmin
  have hon : S.threadOf (e.name, sbc) = sbc.thread := Nat.mod_eq_of_lt hlt
  rw [Nat.mod_eq_of_lt hlt]
  refine ⟨fun i hlt => ?_, ⟨fun hne => absurd hk hne, fun _ => ?_⟩, fun u hu => Level.place hmin (.inl hu)⟩
  · have hnot : ¬S.provisionedOn (S.knownTid rtc) i e = true := by simp [provisionedOn, hk]
    have hold := hI.counts i hlt
    rw [List.countP_cons_of_neg hnot] at hold
    rw [load_append, hon, bump, Function.update_apply]
    by_cases hi : i = sbc.thread
    · rw [if_pos hi, if_pos hi.symm, ← hi]
      omega
    · rw [if_neg hi, if_neg (Ne.symm hi)]
      omega
  · rw [hon]
    exact Level.place hmin (.inr ⟨rfl, hlt⟩)

/-- A plugin with a known thread was counted there. -/
theorem joins_known {rtc : RtcFiles} {more : ℤ} {done todo : List Entry} {e : Entry} {s : Placing}
    {sbc : HsSandboxConfig} (hI : S.Inv rtc more done (e :: todo) s) (he : isCfg e = true)
    (hk : S.knownTid rtc e ≠ uintMax) (hsbc : sbc.thread = S.knownTid rtc e) :
    S.Joins rtc more e todo s (e.name, sbc) s.counts := by
  refine ⟨fun i hlt => ?_, ⟨fun _ => hsbc, fun heq => absurd heq hk⟩, fun u hu => hu⟩
  have hon : S.provisionedOn (S.knownTid rtc) i e = true ↔ S.threadOf (e.name, sbc) = i := by
    simp [provisionedOn, he, hk, threadOf, hsbc]
  rw [hI.counts i hlt, load_append, List.countP_cons]
  by_cases hi : S.threadOf (e.name, sbc) = i
  · rw [if_pos hi, if_pos (hon.mpr hi)]
    omega
  · rw [if_neg hi, if_neg fun h => hi (hon.mp h)]
    omega

/-- A configuration is placed, and what was placed before stays where it belongs. -/
theorem inv_cfg {rtc : RtcFiles} {more : ℤ} {done todo : List Entry} {e : Entry} {s : Placing}
    (hn : 1 ≤ S.threads) (hI : S.Inv rtc more done (e :: todo) s) (he : isCfg e = true) (hload : S.Loads e)
    (hthread : ThreadOk (S.optionOf e)) (hfresh : ∀ f ∈ todo, f.name ≠ e.name) :
    ∃ s', S.placeStep s e = some s' ∧ S.Inv rtc more (done ++ [e]) todo s' := by
  obtain ⟨sbc, chunk, counts, hstep, hknown, hnew⟩ :=
    placeStep_cfg hload hthread (hI.rtc_eq e List.mem_cons_self he)
  have hjoins : S.Joins rtc more e todo s (e.name, sbc) counts := by
    by_cases hk : S.knownTid rtc e = uintMax
    · obtain ⟨hsbc, hbump⟩ := hnew hk
      rw [hbump, ← hsbc]
      exact joins_new hn hI hk hsbc
    · obtain ⟨hsbc, hsame⟩ := hknown hk
      rw [hsame]
      exact joins_known hI he hk hsbc
  refine ⟨_, hstep, ?_, ?_, hjoins.count, ?_⟩
  · intro f hf hfcfg
    dsimp only
    rw [writeRtc_other he hfcfg (hfresh f hf)]
    exact hI.rtc_eq f (List.mem_cons_of_mem _ hf) hfcfg
  · rw [List.map_append, hI.names, List.filter_append, List.filter_cons_of_pos he, List.filter_nil,
      List.map_append]
    rfl
  · intro p hp
    rcases List.mem_append.mp hp with hp | hp
    · obtain ⟨f, hf, hname, hplaced⟩ := hI.placed p hp
      exact ⟨f, List.mem_append_left _ hf, hname, hplaced.known, fun h => hjoins.level _ (hplaced.level h)⟩
    · rw [List.mem_singleton.mp hp]
      exact ⟨e, List.mem_append_right _ List.mem_cons_self, rfl, hjoins.placed⟩

/-- The second pass places every configuration. -/
theorem placeAll_inv {rtc : RtcFiles} {more : ℤ} (hn : 1 ≤ S.threads) {done todo : List Entry}
    {s : Placing} (hI : S.Inv rtc more done todo s) (hload : ∀ e ∈ todo, isCfg e = true → S.Loads e)
    (hthread : ∀ e ∈ todo, isCfg e = true → ThreadOk (S.optionOf e))
    (hnodup : (todo.map Entry.name).Nodup) :
    ∃ s', S.placeAll s todo = some s' ∧ S.Inv rtc more (done ++ todo) [] s' := by
  induction todo generalizing done s with
  | nil => exact ⟨s, rfl, by rwa [List.append_nil]⟩
  | cons e todo ih =>
    rw [List.map_cons, List.nodup_cons] at hnodup
    rw [List.forall_mem_cons] at hload hthread
    have hstep : ∃ s', S.placeStep s e = some s' ∧ S.Inv rtc more (done ++ [e]) todo s' := by
      by_cases he : isCfg e = true
      · refine inv_cfg hn hI he (hload.1 he) (hthread.1 he) fun f hf heq => hnodup.1 ?_
        rw [← heq]
        exact List.mem_map_of_mem hf
      · rw [Bool.not_eq_true] at he
        exact ⟨s, inv_other hI he⟩
    obtain ⟨s1, hs1, hI1⟩ := hstep
    obtain ⟨s2, hs2, hI2⟩ := ih hI1 hload.2 hthread.2 hnodup.2
    rw [List.append_assoc] at hI2
    exact ⟨s2, by rw [placeAll, hs1, Option.bind_some, hs2], hI2⟩

theorem inv_init {rtc : RtcFiles} {more : ℤ} {es : List Entry} (hcounted : S.CountedWith rtc es more) :
    S.Inv rtc more [] es ⟨S.countProvisioned rtc es fun _ => 0, rtc, []⟩ where
  rtc_eq := fun _ _ _ => rfl
  names := rfl
  counts := fun i hi => by
    have hnone : S.load [] i = 0 := rfl
    dsimp only
    rw [countProvisioned_eq, hnone, Nat.zero_add, hcounted i hi, Nat.cast_zero, zero_add]
  placed := fun _ hp => absurd hp List.not_mem_nil

/-- Both passes over the files as they are after the move. -/
theorem balanced_of_moved {rtc moved : RtcFiles} {more : ℤ} {d : Directory} (hn : 1 ≤ S.threads)
    (hload : ∀ e ∈ d.entries, isCfg e = true → S.Loads e)
    (hthread : ∀ e ∈ d.entries, isCfg e = true → ThreadOk (S.optionOf e))
    (hcounted : S.CountedWith moved d.entries more)
    (hmoved : S.migrate rtc d.entries = some moved) : S.Balanced rtc d := by
  obtain ⟨s, hs, hI⟩ := placeAll_inv hn (inv_init hcounted) hload hthread d.nodup
  rw [List.nil_append] at hI
  have hstartup : S.hsLoadAnalysisStartup rtc d = some s := by
    rw [hsLoadAnalysisStartup, hmoved, Option.bind_some, hs]
  refine ⟨moved, s, hmoved, hstartup, hI.names, fun e he p hp hname => ?_⟩
  obtain ⟨f, hf, hfname, hplaced⟩ := hI.placed p hp
  have hsame : ∀ g ∈ d.entries, g.name = e.name → g = e := fun g hg h =>
    List.inj_on_of_nodup_map d.nodup hg he h
  obtain rfl : f = e := hsame f hf (hfname.trans hname)
  have hcfg : isCfg f = true := by
    have hmem : p.1 ∈ s.placed.map Prod.fst := List.mem_map_of_mem hp
    rw [hI.names] at hmem
    obtain ⟨g, hg, hgname⟩ := List.mem_map.mp hmem
    rw [← hsame g (List.mem_of_mem_filter hg) (hgname.trans hname)]
    exact (List.mem_filter.mp hg).2
  have hnil : S.optionOf f = .nil → S.knownTid moved f = S.previous moved f.name := by
    intro h
    rw [knownTid, h]
    rfl
  refine ⟨fun t ht => ?_, fun h hprev => ?_, fun h hprev => ?_⟩
  · have hmax : uintMax = 2 ^ 32 - 1 := rfl
    have hlt : t < uintMax := by
      rcases hthread f he hcfg with h | ⟨u, hu, h⟩
      · rw [ht] at h
        cases h
      · rw [ht] at h
        have htu : (t : ℚ) = u := Number.finite.inj (Value.number.inj h)
        exact Nat.cast_injective htu ▸ hu
    have hknown : S.knownTid moved f = t := by
      rw [knownTid, ht, threadNumber, toUnsigned_nat _ (by omega), if_neg hlt.ne]
    rw [threadOf, hplaced.known (by rw [hknown]; exact hlt.ne), hknown]
  · rw [threadOf, hplaced.known (by rw [hnil h]; exact hprev), hnil h]
  · obtain ⟨hlt, hlevel⟩ := hplaced.level ((hnil h).trans hprev)
    refine ⟨hlt, fun i hi => ?_⟩
    have hle := hlevel i hi
    have ht := hI.counts _ hlt
    have hi := hI.counts i hi
    rw [List.countP_nil] at ht hi
    omega

end Setup

open Setup

/-- Where the first pass is right about the threads, or wrong about all by as much, the placing is balanced
exactly when the `.rtc` files can be moved. -/
theorem startup_balanced (S : Setup) (rtc : RtcFiles) (d : Directory) (hn : 1 ≤ S.threads)
    (hload : ∀ e ∈ d.entries, isCfg e = true → S.Loads e)
    (hthread : ∀ e ∈ d.entries, isCfg e = true → ThreadOk (S.optionOf e))
    (halike : S.CountsAlike rtc d) : S.Balanced rtc d ↔ S.MigrationFits d.entries := by
  rw [← migrate_isSome rtc d.entries]
  constructor
  · rintro ⟨moved, s, hmoved, -⟩
    rw [hmoved]
    rfl
  · intro hfits
    obtain ⟨moved, hmoved⟩ := Option.isSome_iff_exists.mp hfits
    obtain ⟨more, hcounted⟩ := halike moved hmoved
    exact balanced_of_moved hn hload hthread hcounted hmoved

/-- A configuration without a thread option, and one with thread 1. -/
def textNew : String := "filename = 'a.lua' message_matcher = 'TRUE' --"

def textOne : String := "filename = 'a.lua' message_matcher = 'TRUE' thread = 1"

/-- A zero byte in the comment, and the option on the next line. -/
def textZero : String := textNew ++ "\x00\nthread = 1"

/-- The interpreter on these texts, and on the text of a `.rtc` file. -/
def runText (text : String) : Except String State :=
  if text = textNew then .ok (threadPlugin .nil)
  else if text = textOne ∨ text = textZero then .ok (threadPlugin (.number (.finite (1 : Nat))))
  else if text = "thread = 1" then
    .ok ⟨fun _ => [(.string "thread", .number (.finite (1 : Nat)))], 0, []⟩
  else .error "syntax error"

/-- Two threads. -/
def twoThreads : Setup where
  X := plainEnv
  cast := fun _ => 0
  cfg := { Config.initConfig plainEnv with
    runPathAnalysis := some "run/analysis", outputPath := some "output", analysisThreads := 2 }
  lua := ⟨runText, runText, fun _ _ => rfl⟩
  moves := fun _ => .renamed
  created := fun _ _ => none

/-- A plugin with a thread option, one whose `.rtc` file is still in the run directory and a new one. -/
def threePlugins : Directory where
  entries :=
    [⟨"a.cfg", some textOne⟩, ⟨"b.cfg", some textNew⟩, ⟨"c.cfg", some textNew⟩,
      ⟨"b.rtc", some "thread = 1"⟩]
  nodup := by decide

/-- Three plugins with a zero byte in front of the thread option. -/
def zeroPlugins : Directory where
  entries := [⟨"a.cfg", some textZero⟩, ⟨"b.cfg", some textZero⟩, ⟨"c.cfg", some textZero⟩]
  nodup := by decide

def noRtc : RtcFiles := fun _ => .error "no file"

theorem loads_of_isSome {S : Setup} {e : Entry}
    (h : ((hsLoadSandboxConfig S.X S.dir e.name (S.file e) (some S.cfg.apd) .analysis).bind
      Except.toOption).isSome = true) : S.Loads e := by
  obtain ⟨sbc, hsbc⟩ := Option.isSome_iff_exists.mp h
  exact ⟨sbc, ok_of_toOption hsbc⟩

theorem startup_balanced_three :
    twoThreads.Balanced noRtc threePlugins ↔ twoThreads.MigrationFits threePlugins.entries := by
  have hload : ∀ e ∈ threePlugins.entries, isCfg e = true → twoThreads.Loads e := by
    simp only [threePlugins, List.forall_mem_cons]
    refine ⟨fun _ => loads_of_isSome (by decide +kernel), fun _ => loads_of_isSome (by decide +kernel),
      fun _ => loads_of_isSome (by decide +kernel), fun h => ?_, fun e he => absurd he List.not_mem_nil⟩
    exact absurd h (by decide)
  have hone : twoThreads.optionOf ⟨"a.cfg", some textOne⟩ = .number (.finite (1 : Nat)) := by decide +kernel
  have hnew : ∀ name, twoThreads.optionOf ⟨name, some textNew⟩ = .nil := by
    intro name
    change threadOption (runText (cString textNew)) = .nil
    decide +kernel
  have hthread : ∀ e ∈ threePlugins.entries, isCfg e = true → ThreadOk (twoThreads.optionOf e) := by
    simp only [threePlugins, List.forall_mem_cons]
    refine ⟨fun _ => .inr ⟨1, by decide, hone⟩, fun _ => .inl (hnew _), fun _ => .inl (hnew _), fun h => ?_,
      fun e he => absurd he List.not_mem_nil⟩
    exact absurd h (by decide)
  have hplain : ∀ e ∈ threePlugins.entries, isCfg e = true → ∀ text ∈ e.content, Plain text := by
    simp only [threePlugins, List.forall_mem_cons, Option.mem_def, Option.some.injEq, forall_eq', Plain]
    refine ⟨fun _ => by decide, fun _ => by decide, fun _ => by decide, fun _ => by decide,
      fun e he => absurd he List.not_mem_nil⟩
  exact startup_balanced twoThreads noRtc threePlugins (by decide) hload hthread
    (countsAlike_of_plain hload hplain)

/-- The first pass counts all three on thread 1, the second places all of them on thread 0. -/
theorem balanced_fails :
    ¬∀ (S : Setup) (rtc : RtcFiles) (d : Directory), 1 ≤ S.threads →
      (∀ e ∈ d.entries, isCfg e = true → S.Loads e) →
      (∀ e ∈ d.entries, isCfg e = true → ThreadOk (S.optionOf e)) → S.Balanced rtc d := by
  intro h
  have hload : ∀ e ∈ zeroPlugins.entries, isCfg e = true → twoThreads.Loads e := by
    simp only [zeroPlugins, List.forall_mem_cons]
    exact ⟨fun _ => loads_of_isSome (by decide +kernel), fun _ => loads_of_isSome (by decide +kernel),
      fun _ => loads_of_isSome (by decide +kernel), fun e he => absurd he List.not_mem_nil⟩
  have hoption : ∀ name, twoThreads.optionOf ⟨name, some textZero⟩ = .nil := by
    intro name
    change threadOption (runText (cString textZero)) = .nil
    decide +kernel
  have hthread : ∀ e ∈ zeroPlugins.entries, isCfg e = true → ThreadOk (twoThreads.optionOf e) := by
    simp only [zeroPlugins, List.forall_mem_cons]
    exact ⟨fun _ => .inl (hoption _), fun _ => .inl (hoption _), fun _ => .inl (hoption _),
      fun e he => absurd he List.not_mem_nil⟩
  obtain ⟨moved, s, hmoved, hs, hnames, hall⟩ :=
    h twoThreads noRtc zeroPlugins (by decide) hload hthread
  obtain rfl : noRtc = moved := by
    have hsame : twoThreads.migrate noRtc zeroPlugins.entries = some noRtc := rfl
    exact Option.some.inj (hsame.symm.trans hmoved)
  have hthreads : s.placed.map twoThreads.threadOf = [0, 0, 0] := by
    have hrun : (twoThreads.hsLoadAnalysisStartup noRtc zeroPlugins).map
        (fun s => s.placed.map twoThreads.threadOf) = some [0, 0, 0] := by decide +kernel
    rw [hs] at hrun
    exact Option.some.inj hrun
  have hcount : ∀ i, twoThreads.load s.placed i = [0, 0, 0].count i := by
    intro i
    rw [← hthreads, List.count, List.countP_map]
    rfl
  have hmem : "a.cfg" ∈ s.placed.map Prod.fst := by
    rw [hnames]
    decide
  obtain ⟨p, hp, hname⟩ := List.mem_map.mp hmem
  have hzero : twoThreads.threadOf p = 0 := by
    have hpt : twoThreads.threadOf p ∈ s.placed.map twoThreads.threadOf := List.mem_map_of_mem hp
    rw [hthreads] at hpt
    simpa using hpt
  have hnever : twoThreads.previous noRtc "a.cfg" = uintMax := by decide +kernel
  have hlevel := ((hall ⟨"a.cfg", some textZero⟩ List.mem_cons_self p hp hname).2.2 (hoption _) hnever).2 1
    (by decide)
  rw [hzero, hcount, hcount] at hlevel
  exact absurd hlevel (by decide)

/-! ## Loading while the daemon runs -/

def hsOffExt : String := ".off"

def hsErrExt : String := ".err"

def withExt (name ext : String) : String :=
  String.ofList (name.toList.take (name.length - hsExtLen)) ++ ext

/-- The chunks in the load directory, the files of the run directory and the `.rtc` files. -/
structure Dirs where
  load : String → Except String State
  run : String → Bool
  rtc : RtcFiles

/-- `ext_exists`; a path that is too long ends the process. -/
def extExists (dir : String) (files : String → Bool) (name ext : String) : Option Bool :=
  (hsGetFqfn dir name hsMaxPath).map fun _ => files (withExt name ext)

namespace Setup

variable (S : Setup)

def loadDir : String := S.cfg.loadPathAnalysis.getD ""

/-- The thread of an instance that was not stopped. -/
def matchThread (D : Dirs) (name : String) (tid : Nat) : Option Nat :=
  let otid := S.previous D.rtc name
  let tid := if tid = uintMax then otid else tid
  if otid ≠ tid then none else some tid

/-- `get_thread_id`: the process ends, the file is refused, or the thread, `UINT_MAX` when any will do. -/
def getThreadId (D : Dirs) (name : String) : Option (Option Nat) :=
  if hsHasExt name hsCfgExt then
    let tid := getTid S.cast S.loadDir name (D.load name)
    (extExists S.dir D.run name hsOffExt).bind fun off =>
      if off then some (some tid)
      else
        (extExists S.dir D.run name hsErrExt).bind fun err =>
          if err then some (some tid) else some (S.matchThread D name tid)
  else if hsHasExt name hsOffExt then
    let tid := S.previous D.rtc (withExt name hsCfgExt)
    some (if tid ≠ uintMax then some tid else none)
  else some none

/-- The thread `hs_load_analysis_dynamic` removes the old instance from. -/
def removesFrom (tid : Nat) : Option Nat := if tid = uintMax then none else some (tid % S.threads)

/-- A configuration is refused only when an instance runs on another thread, and one without a thread option
replaces the instance that runs. `running`: the thread of the instance. -/
def Matches (D : Dirs) (name : String) (running : Option Nat) : Prop :=
  ((¬∃ tid, S.getThreadId D name = some (some tid)) →
    ∃ r, running = some r ∧ r ≠ threadNumber S.cast (threadOption (D.load name)) % S.threads) ∧
  (threadOption (D.load name) = .nil → ∀ r, running = some r →
    ∃ tid, S.getThreadId D name = some (some tid) ∧ S.removesFrom tid = some r)

/-- The plugin was stopped or terminated. -/
def Flagged (D : Dirs) (name : String) : Prop :=
  D.run (withExt name hsOffExt) = true ∨ D.run (withExt name hsErrExt) = true

/-- The path in the run directory fits, and the plugin is flagged, or there is no thread option, or it is the
number in the `.rtc` file. -/
def Accepts (D : Dirs) (name : String) : Prop :=
  (hsGetFqfn S.dir name hsMaxPath).isSome = true ∧
    (Flagged D name ∨ getTid S.cast S.loadDir name (D.load name) = uintMax ∨
      getTid S.cast S.loadDir name (D.load name) = S.previous D.rtc name)

/-- The configuration is accepted or an instance runs elsewhere; where an instance runs and there is no
thread option, nothing is flagged and the `.rtc` file has the thread of the instance. -/
def Agrees (D : Dirs) (name : String) (running : Option Nat) : Prop :=
  (S.Accepts D name ∨
    ∃ r, running = some r ∧ r ≠ threadNumber S.cast (threadOption (D.load name)) % S.threads) ∧
  (threadOption (D.load name) = .nil → ∀ r, running = some r →
    (hsGetFqfn S.dir name hsMaxPath).isSome = true ∧ ¬Flagged D name ∧
      S.previous D.rtc name ≠ uintMax ∧ S.previous D.rtc name % S.threads = r)

variable {S} {D : Dirs} {name : String}

/-- What is returned for a configuration. -/
theorem getThreadId_cfg (hname : hsHasExt name hsCfgExt = true) :
    (hsGetFqfn S.dir name hsMaxPath = none ∧ S.getThreadId D name = none) ∨
    (hsGetFqfn S.dir name hsMaxPath).isSome = true ∧
      (Flagged D name ∧ S.getThreadId D name = some (some (getTid S.cast S.loadDir name (D.load name))) ∨
        ¬Flagged D name ∧
          S.getThreadId D name =
            some (S.matchThread D name (getTid S.cast S.loadDir name (D.load name)))) := by
  cases hpath : hsGetFqfn S.dir name hsMaxPath with
  | none =>
    refine .inl ⟨rfl, ?_⟩
    simp only [getThreadId, if_pos hname, extExists, hpath, Option.map_none, Option.bind_none]
  | some fqfn =>
    refine .inr ⟨rfl, ?_⟩
    simp only [getThreadId, if_pos hname, extExists, hpath, Option.map_some, Option.bind_some, Flagged]
    cases D.run (withExt name hsOffExt) with
    | true => exact .inl ⟨.inl rfl, rfl⟩
    | false =>
      cases D.run (withExt name hsErrExt) with
      | true => exact .inl ⟨.inr rfl, rfl⟩
      | false =>
        refine .inr ⟨?_, rfl⟩
        rintro (h | h)
        · cases h
        · cases h

theorem matchThread_some {t tid : Nat} :
    S.matchThread D name t = some tid ↔
      (t = uintMax ∨ t = S.previous D.rtc name) ∧ tid = S.previous D.rtc name := by
  unfold matchThread
  by_cases ht : t = uintMax
  · simp [ht, eq_comm]
  · by_cases hp : S.previous D.rtc name = t
    · simp [ht, hp, eq_comm]
    · simp [ht, hp, Ne.symm hp]

theorem accepts_iff (hname : hsHasExt name hsCfgExt = true) :
    (∃ tid, S.getThreadId D name = some (some tid)) ↔ S.Accepts D name := by
  unfold Accepts
  rcases getThreadId_cfg (S := S) (D := D) hname with ⟨hpath, hid⟩ | ⟨hpath, ⟨hflag, hid⟩ | ⟨hflag, hid⟩⟩
  · rw [hid, hpath]
    exact iff_of_false (fun ⟨_, h⟩ => by cases h) fun h => by cases h.1
  · rw [hid, hpath]
    exact iff_of_true ⟨_, rfl⟩ ⟨rfl, .inl hflag⟩
  · rw [hid, and_iff_right hpath, or_iff_right hflag]
    simp only [Option.some.injEq, matchThread_some, exists_and_left, exists_eq, and_true]

/-- Without a thread option the running instance is replaced just if the `.rtc` file has its thread. -/
theorem replaces_iff (hname : hsHasExt name hsCfgExt = true) (hopt : threadOption (D.load name) = .nil)
    (r : Nat) :
    (∃ tid, S.getThreadId D name = some (some tid) ∧ S.removesFrom tid = some r) ↔
      (hsGetFqfn S.dir name hsMaxPath).isSome = true ∧ ¬Flagged D name ∧
        S.previous D.rtc name ≠ uintMax ∧ S.previous D.rtc name % S.threads = r := by
  have htid : getTid S.cast S.loadDir name (D.load name) = uintMax := by
    rw [getTid, hopt]
    cases hsGetFqfn S.loadDir name hsMaxPath <;> rfl
  rcases getThreadId_cfg (S := S) (D := D) hname with ⟨hpath, hid⟩ | ⟨hpath, ⟨hflag, hid⟩ | ⟨hflag, hid⟩⟩
  · rw [hid, hpath]
    exact iff_of_false (fun ⟨_, h, _⟩ => by cases h) fun h => by cases h.1
  · rw [hid, htid]
    refine iff_of_false ?_ fun h => h.2.1 hflag
    rintro ⟨tid, h, hrem⟩
    cases h
    cases hrem
  · rw [hid, htid, and_iff_right hpath, and_iff_right hflag]
    simp only [Option.some.injEq, matchThread_some, true_or, true_and, exists_eq_left, removesFrom]
    by_cases hp : S.previous D.rtc name = uintMax
    · rw [if_pos hp]
      exact iff_of_false (fun h => by cases h) fun h => h.1 hp
    · rw [if_neg hp, Option.some.injEq, and_iff_right hp]

end Setup

/-- Loads are matched with what runs exactly when the files say so. -/
theorem matches_iff (S : Setup) (D : Dirs) (name : String) (running : Option Nat)
    (hname : hsHasExt name hsCfgExt = true) : S.Matches D name running ↔ S.Agrees D name running := by
  unfold Setup.Matches Setup.Agrees
  refine and_congr ?_ ?_
  · rw [accepts_iff hname]
    exact or_iff_not_imp_left.symm
  · exact forall_congr' fun hopt => forall_congr' fun r => imp_congr_right fun _ => replaces_iff hname hopt r

/-- One file in the load directory, nothing else. -/
def newFile (thread : Value) : Dirs where
  load := fun _ => .ok (threadPlugin thread)
  run := fun _ => false
  rtc := fun _ => .error "no file"

theorem matches_iff_new :
    twoThreads.Matches (newFile .nil) "a.cfg" none ↔ twoThreads.Agrees (newFile .nil) "a.cfg" none :=
  matches_iff twoThreads (newFile .nil) "a.cfg" none (by decide)

/-- A new plugin with a thread option is refused. -/
theorem matches_fails :
    ¬∀ (S : Setup) (D : Dirs) (name : String) (running : Option Nat),
      hsHasExt name hsCfgExt = true → S.Matches D name running := by
  intro h
  have hmatch := (h twoThreads (newFile (.number (.finite (1 : Nat)))) "a.cfg" none (by decide)).1
  have hrefused : twoThreads.getThreadId (newFile (.number (.finite (1 : Nat)))) "a.cfg" = some none := by
    decide +kernel
  rw [hrefused] at hmatch
  obtain ⟨r, hr, -⟩ := hmatch fun ⟨_, htid⟩ => by cases htid
  cases hr

end ThreadPlacement

end Hindsight
