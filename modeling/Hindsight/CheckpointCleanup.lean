import Hindsight.Lib.NumberFormat
import Hindsight.CheckpointFile
import Hindsight.Config

/-!
# Hindsight.CheckpointCleanup

The clean-up of the checkpoint store at start-up, `hs_cleanup_checkpoints`. It takes every key apart with
`strstr` and two `sscanf` patterns and removes the entries whose thread or plugin is gone.

* `readOwner`: the thread or plugin the code reads out of a key.
* `Cleans`: the entries that are left are those whose own thread or plugin is there.
* `Reads`: the clean-up finds out what there is to know about a key.
* `cleans_iff`: a clean-up that returns cleans the store exactly when it reads every key.
-/

namespace Hindsight

namespace CheckpointCleanup

open Decimal (digits)
open NumberFormat
open CheckpointFile (Basename StoreKey Entry Store Reader inputName analysisName outputName)
open Config (hsMaxPath)

variable {δ : Type}

/-- What follows the first `->`. -/
def afterArrow : List UInt8 → Option (List UInt8)
  | [] => none
  | c :: rest =>
    if c = 45 ∧ rest.head? = some 62 then some rest.tail else afterArrow rest

/-- What `%s` reads. -/
def firstWord (s : List UInt8) : List UInt8 := (s.dropWhile isSpace).takeWhile fun c => !isSpace c

/-- What an entry belongs to. -/
inductive Owner where
  | thread (n : Nat)
  | plugin (type name : List UInt8)
  | queue
  deriving DecidableEq, Repr

/-- `analysis%hhu`. -/
def scanThread (s : List UInt8) : Option Nat := (s.dropPrefix? analysisName).bind fun t => scanUInt8 t

/-- `%[^.].%s`. The buffers hold what is read of any key, as a file name has at most 255 bytes. -/
def scanPlugin (s : List UInt8) : Option (List UInt8 × List UInt8) :=
  let type := s.takeWhile (· != 46)
  let name := firstWord (s.dropWhile (· != 46)).tail
  if type = [] ∨ name = [] then none else some (type, name)

def readSubkey (subkey : List UInt8) : Owner :=
  match scanThread subkey with
  | some n => .thread n
  | none =>
    match scanPlugin subkey with
    | some (type, name) => .plugin type name
    | none => .queue

def readOwner (key : List UInt8) : Owner := readSubkey ((afterArrow key).getD key)

/-- `hs_cfg_ext`. -/
def cfgExt : List UInt8 := [46, 99, 102, 103]

def cfgPath (runPath type name : List UInt8) : List UInt8 :=
  runPath ++ [47] ++ type ++ [47] ++ name ++ cfgExt

section

variable (runPath : List UInt8) (fileExists : List UInt8 → Bool) (threads : UInt8)

/-- The path that is looked up fits into its buffer. -/
def fits : Owner → Bool
  | .plugin type name => decide ((cfgPath runPath type name).length ≤ hsMaxPath - 1)
  | _ => true

/-- The thread is started, or the plugin has its file in the run directory. -/
def alive : Owner → Bool
  | .thread n => decide (n < threads.toNat)
  | .plugin type name => fileExists (cfgPath runPath type name)
  | .queue => true

def retain (p : Entry δ → Bool) (s : Store δ) : Store δ :=
  ⟨s.entries.filter p, s.nodup.sublist (List.filter_sublist.map _)⟩

/-- `hs_cleanup_checkpoints`; `none` when the process ends because a path is too long. An entry may be
removed while `lua_next` is at it. -/
def hsCleanupCheckpoints (s : Store δ) : Option (Store δ) :=
  if ∀ e ∈ s.entries, fits runPath (readOwner e.1.text) = true then
    some (retain (fun e => alive runPath fileExists threads (readOwner e.1.text)) s)
  else none

/-- What the entry with a key is for. -/
def owner : StoreKey → Owner
  | .plugin b => .plugin inputName b.bytes
  | .position _ none => .queue
  | .position _ (some (.thread n)) => .thread n
  | .position _ (some (.plugin b)) => .plugin outputName b.bytes

def Cleans (s s' : Store δ) : Prop :=
  ∀ e, e ∈ s'.entries ↔ e ∈ s.entries ∧ alive runPath fileExists threads (owner e.1) = true

/-- The name has no white space, or its first word has a file exactly if the name has. A name of white
space alone is not looked up. -/
def ReadsName (type : List UInt8) (b : Basename) : Prop :=
  (∀ c ∈ b.bytes, isSpace c = false) ∨
    ((firstWord b.bytes = [] ∨ fileExists (cfgPath runPath type (firstWord b.bytes)) = true) ↔
      fileExists (cfgPath runPath type b.bytes) = true)

/-- What follows an arrow is a thread that is started, `<type>.<word>` with a file, or neither of them. -/
def KeptBehind (rest : List UInt8) : Prop :=
  match scanThread rest, scanPlugin rest with
  | some n, _ => n < threads.toNat
  | none, some (type, word) => fileExists (cfgPath runPath type word) = true
  | none, none => True

/-- A thread is read modulo 256. An arrow in the name of an input plugin is taken for the one after a
queue, and what follows it is looked up instead. -/
def Reads : StoreKey → Prop
  | .position _ none => True
  | .position _ (some (.thread n)) => n < 256 ∨ threads.toNat ≤ min n NumberFormat.ullongMax % 256
  | .position _ (some (.plugin b)) => ReadsName runPath fileExists outputName b
  | .plugin b =>
    match afterArrow b.bytes with
    | none => ReadsName runPath fileExists inputName b
    | some rest =>
      KeptBehind runPath fileExists threads rest ↔
        fileExists (cfgPath runPath inputName b.bytes) = true

end

/-! ## The first word -/

theorem firstWord_eq_self {s : List UInt8} (h : ∀ c ∈ s, isSpace c = false) : firstWord s = s := by
  have hdrop : s.dropWhile isSpace = s := by
    cases s with
    | nil => rfl
    | cons c s => exact List.dropWhile_cons_of_neg (by simp [h c List.mem_cons_self])
  rw [firstWord, hdrop]
  exact List.takeWhile_eq_self_iff.mpr fun c hc => by simp [h c hc]

/-! ## The keys taken apart -/

theorem afterArrow_plugin (b : Basename) :
    afterArrow (StoreKey.plugin b).text = afterArrow b.bytes := rfl

theorem afterArrow_position (q : Queue) (r : Reader) :
    afterArrow (StoreKey.position q (some r)).text = some r.name := by
  cases q <;> rfl

theorem scanPlugin_dot {type : List UInt8} (ht : type ≠ []) (hdot : 46 ∉ type) (name : List UInt8) :
    scanPlugin (type ++ [46] ++ name) =
      if firstWord name = [] then none else some (type, firstWord name) := by
  have hne : ∀ c ∈ type, (c != 46) = true := fun c hc =>
    bne_iff_ne.mpr fun he => hdot (he ▸ hc)
  have htake : (type ++ [46] ++ name).takeWhile (· != 46) = type := by
    rw [List.append_assoc, List.takeWhile_append_of_pos hne]
    exact List.append_nil type
  have hdrop : ((type ++ [46] ++ name).dropWhile (· != 46)).tail = name := by
    rw [List.append_assoc, List.dropWhile_append_of_pos hne]
    rfl
  simp only [scanPlugin, htake, hdrop, ht, false_or]

theorem readOwner_queue (q : Queue) : readOwner (StoreKey.position q none).text = .queue := by
  cases q <;> rfl

theorem readOwner_thread (q : Queue) (n : Nat) :
    readOwner (StoreKey.position q (some (.thread n))).text =
      .thread (min n NumberFormat.ullongMax % 256) := by
  have hprefix : (Reader.name (.thread n)).dropPrefix? analysisName = some (digits n) :=
    List.dropPrefix?_append_of_beq _ BEq.rfl
  have hscan : scanThread (Reader.name (.thread n)) = some (min n NumberFormat.ullongMax % 256) := by
    rw [scanThread, hprefix, Option.bind_some, scanUInt8_digits]
  rw [readOwner, afterArrow_position, Option.getD_some, readSubkey, hscan]

/-- What is read of `<type>.<name>`. -/
def readName (type name : List UInt8) : Owner :=
  if firstWord name = [] then .queue else .plugin type (firstWord name)

theorem readOwner_output (q : Queue) (b : Basename) :
    readOwner (StoreKey.position q (some (.plugin b))).text = readName outputName b.bytes := by
  have hscan : scanThread (Reader.name (.plugin b)) = none := rfl
  have hplugin := scanPlugin_dot (by decide : outputName ≠ []) (by decide) b.bytes
  rw [readOwner, afterArrow_position, Option.getD_some, readSubkey, hscan]
  by_cases hword : firstWord b.bytes = []
  · simp only [Reader.name, hplugin, readName, hword, if_true]
  · simp only [Reader.name, hplugin, readName, hword, if_false]

theorem readOwner_input {b : Basename} (h : afterArrow b.bytes = none) :
    readOwner (StoreKey.plugin b).text = readName inputName b.bytes := by
  have hscan : scanThread (StoreKey.plugin b).text = none := rfl
  have hplugin := scanPlugin_dot (by decide : inputName ≠ []) (by decide) b.bytes
  rw [readOwner, afterArrow_plugin, h, Option.getD_none, readSubkey, hscan]
  by_cases hword : firstWord b.bytes = []
  · simp only [StoreKey.text, hplugin, readName, hword, if_true]
  · simp only [StoreKey.text, hplugin, readName, hword, if_false]

theorem readOwner_arrow {b : Basename} {rest : List UInt8} (h : afterArrow b.bytes = some rest) :
    readOwner (StoreKey.plugin b).text = readSubkey rest := by
  rw [readOwner, afterArrow_plugin, h, Option.getD_some]

/-! ## What the clean-up keeps -/

section

variable {runPath : List UInt8} {fileExists : List UInt8 → Bool} {threads : UInt8}

theorem alive_readName (type : List UInt8) (b : Basename) :
    (alive runPath fileExists threads (readName type b.bytes) = true ↔
      alive runPath fileExists threads (.plugin type b.bytes) = true) ↔
    ReadsName runPath fileExists type b := by
  by_cases hb : ∀ c ∈ b.bytes, isSpace c = false
  · have hword := firstWord_eq_self hb
    rw [readName, hword, if_neg b.ne_nil]
    exact iff_of_true Iff.rfl (.inl hb)
  · simp only [ReadsName, hb, false_or]
    by_cases hnil : firstWord b.bytes = []
    · simp only [readName, hnil, if_true, true_or, alive]
    · simp only [readName, hnil, if_false, false_or, alive]

theorem alive_thread (n : Nat) :
    (alive runPath fileExists threads (.thread (min n NumberFormat.ullongMax % 256)) = true ↔
      alive runPath fileExists threads (.thread n) = true) ↔
    n < 256 ∨ threads.toNat ≤ min n NumberFormat.ullongMax % 256 := by
  have hthreads : threads.toNat < 256 := threads.toNat_lt
  have hmax : 256 ≤ NumberFormat.ullongMax := by decide
  simp only [alive, decide_eq_true_eq]
  omega

theorem alive_readSubkey (rest : List UInt8) :
    alive runPath fileExists threads (readSubkey rest) = true ↔
      KeptBehind runPath fileExists threads rest := by
  unfold readSubkey KeptBehind
  cases scanThread rest with
  | some n => exact decide_eq_true_iff
  | none =>
    cases scanPlugin rest with
    | some p => exact Iff.rfl
    | none => exact iff_of_true rfl trivial

/-- The key is kept as it should be exactly when the clean-up reads it. -/
theorem alive_readOwner (k : StoreKey) :
    (alive runPath fileExists threads (readOwner k.text) = true ↔
      alive runPath fileExists threads (owner k) = true) ↔
    Reads runPath fileExists threads k := by
  cases k with
  | plugin b =>
    cases harrow : afterArrow b.bytes with
    | none =>
      rw [readOwner_input harrow]
      simp only [Reads, harrow]
      exact alive_readName inputName b
    | some rest =>
      rw [readOwner_arrow harrow, alive_readSubkey]
      simp only [Reads, harrow]
      exact Iff.rfl
  | position q r =>
    cases r with
    | none =>
      rw [readOwner_queue]
      exact iff_of_true Iff.rfl trivial
    | some r =>
      cases r with
      | thread n =>
        rw [readOwner_thread]
        exact alive_thread n
      | plugin b =>
        rw [readOwner_output]
        exact alive_readName outputName b

/-- Names without white space, and without an arrow where they are input plugins, are read. -/
theorem reads_of_plain {k : StoreKey}
    (hthread : ∀ q n, k = .position q (some (.thread n)) → n < 256)
    (houtput : ∀ q b, k = .position q (some (.plugin b)) → ∀ c ∈ b.bytes, isSpace c = false)
    (hinput : ∀ b, k = .plugin b → afterArrow b.bytes = none ∧ ∀ c ∈ b.bytes, isSpace c = false) :
    Reads runPath fileExists threads k := by
  cases k with
  | plugin b =>
    obtain ⟨harrow, hspace⟩ := hinput b rfl
    simp only [Reads, harrow]
    exact .inl hspace
  | position q r =>
    cases r with
    | none => trivial
    | some r =>
      cases r with
      | thread n => exact .inl (hthread q n rfl)
      | plugin b => exact .inl (houtput q b rfl)

theorem mem_cleanup {s s' : Store δ} (h : hsCleanupCheckpoints runPath fileExists threads s = some s')
    (e : Entry δ) :
    e ∈ s'.entries ↔
      e ∈ s.entries ∧ alive runPath fileExists threads (readOwner e.1.text) = true := by
  unfold hsCleanupCheckpoints at h
  split at h
  · cases h
    exact List.mem_filter
  · cases h

theorem cleans_iff {s s' : Store δ}
    (h : hsCleanupCheckpoints runPath fileExists threads s = some s') :
    Cleans runPath fileExists threads s s' ↔
      ∀ e ∈ s.entries, Reads runPath fileExists threads e.1 := by
  constructor
  · intro hclean e he
    refine alive_readOwner e.1 |>.mp ?_
    have hboth := (mem_cleanup h e).symm.trans (hclean e)
    simpa only [he, true_and] using hboth
  · intro hreads e
    rw [mem_cleanup h e]
    exact and_congr_right fun he => (alive_readOwner e.1).mpr (hreads e he)

end

/-- The output plugin `a b`. -/
def spacedKey : StoreKey :=
  .position .input (some (.plugin ⟨[97, 32, 98], by decide, by decide, by decide⟩))

/-- The other keys of the store: the writer of the input queue and an analysis thread. -/
def otherKeys : List StoreKey := [.position .input none, .position .analysis (some (.thread 0))]

def entriesAt (keys : List StoreKey) : List (Entry Nat) := keys.map fun k => (k, .str [48, 58, 48])

theorem nodup_entriesAt : ((entriesAt (spacedKey :: otherKeys)).map fun e => e.1.text).Nodup := by decide

def spacedStore : Store Nat := ⟨entriesAt (spacedKey :: otherKeys), nodup_entriesAt⟩

/-- What the clean-up leaves of it. -/
def cleanedStore : Store Nat := ⟨entriesAt otherKeys, (List.nodup_cons.mp nodup_entriesAt).2⟩

/-- The run directory `r` has the file of the output plugin `a b` and no other one. -/
def spacedExists (path : List UInt8) : Bool := path == cfgPath [114] outputName [97, 32, 98]

theorem cleanup_spaced : hsCleanupCheckpoints [114] spacedExists 1 spacedStore = some cleanedStore := by
  have hfits : ∀ e ∈ spacedStore.entries, fits [114] (readOwner e.1.text) = true := by decide
  have hothers : spacedStore.entries.filter
      (fun e => alive [114] spacedExists 1 (readOwner e.1.text)) = entriesAt otherKeys := by decide
  rw [hsCleanupCheckpoints, if_pos hfits]
  simp only [retain, hothers]
  rfl

theorem cleans_spaced : ¬ Cleans [114] spacedExists 1 spacedStore cleanedStore := by
  intro h
  have hreads : Reads [114] spacedExists 1 spacedKey :=
    (cleans_iff cleanup_spaced).mp h _ List.mem_cons_self
  rcases hreads with hspace | hword
  · exact absurd (hspace 32 (by decide)) (by decide)
  · exact absurd (hword.mpr (by decide)) (by decide)

/-- `a.cfg` is looked up for the plugin of `a b.cfg`, whose position is removed. -/
theorem cleans_fails :
    ¬ ∀ (runPath : List UInt8) (fileExists : List UInt8 → Bool) (threads : UInt8) (s s' : Store Nat),
      hsCleanupCheckpoints runPath fileExists threads s = some s' →
        Cleans runPath fileExists threads s s' := by
  intro h
  have hmem : (spacedKey, LuaValue.str [48, 58, 48]) ∈ entriesAt otherKeys :=
    (h _ _ _ _ _ cleanup_spaced _).mpr ⟨List.mem_cons_self, by decide⟩
  obtain ⟨k, hk, heq⟩ := List.mem_map.mp hmem
  have hnot : spacedKey ∉ otherKeys := by decide
  cases heq
  exact hnot hk

end CheckpointCleanup

end Hindsight
