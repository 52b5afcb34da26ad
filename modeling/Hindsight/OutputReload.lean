import Hindsight.OutputStreams
import Hindsight.PositionStore

/-!
# Hindsight.OutputReload

An output plugin that is stopped and loaded again with another configuration. Its positions go from the
thread's `cp` into the store when the thread ends, and from the store into three places of the new instance:
the reader's position, `cur` and `cp`. An observer keeps the instance that was stopped, the store it left
and the instance that was made from it.

* `Resumes`: the new instance starts where the old one ended, and where the queue's writer is in a queue
  that had no entry.
* `Safe`: so it does, and the entry of a queue that is no longer read is gone.
* `Admits`: the key of such an entry fits into the buffer of `remove_checkpoint_q`.
* `reload_iff`: a run keeps `Safe` exactly when all its steps are admitted.
-/

namespace Hindsight

namespace OutputReload

open PositionStore
open CheckpointFile (subdir Basename Reader)
open Config (hsMaxPath)

variable {δ : Type}

/-! ## The functions -/

/-- The name of the plugin, `create_name("output", …)`. -/
def pluginName (b : Basename) : List UInt8 := (Reader.plugin b).name

/-- The key of the plugin's position in a queue. -/
def ownKey (b : Basename) (q : Queue) : List UInt8 := entryKey (subdir q) (some (pluginName b))

/-- `snprintf` into a buffer of `HS_MAX_PATH` bytes. -/
def snprintf (text : List UInt8) : List UInt8 := text.take (hsMaxPath - 1)

/-- `hs_remove_checkpoint` -/
def hsRemoveCheckpoint (G : Globals δ) (key : List UInt8) : Globals δ := Function.update G key .nil

def removeEntry (b : Basename) (rq : ReadQueue) (G : Globals δ) (q : Queue) : Globals δ :=
  if rq.reads q then hsRemoveCheckpoint G (snprintf (ownKey b q)) else G

/-- `remove_checkpoint_q`; with both queues also `remove_checkpoints`, which builds the same keys from the
file name. -/
def removeCheckpointQ (b : Basename) (rq : ReadQueue) (G : Globals δ) : Globals δ :=
  removeEntry b rq (removeEntry b rq G .input) .analysis

def storeEntry (b : Basename) (p : OutputPlugin) (G : Globals δ) (q : Queue) : Globals δ :=
  if p.readQueue.reads q then
    hsUpdateInputCheckpoint G (subdir q) (some (pluginName b)) (p.cp.get q)
  else G

/-- The positions of the plugin in the queues it reads, as `output_stats` and the end of `input_thread`
store them. -/
def storePositions (b : Basename) (p : OutputPlugin) (G : Globals δ) : Globals δ :=
  storeEntry b p (storeEntry b p G .input) .analysis

/-- `hs_write_checkpoints`: the positions of the queues' writers, then those of the plugin. -/
def hsWriteCheckpoints (b : Basename) (plugin : Option OutputPlugin) (writer : Queue → Checkpoint)
    (G : Globals δ) : Globals δ :=
  let G := hsUpdateInputCheckpoint G (subdir .input) none (writer .input)
  let G := hsUpdateInputCheckpoint G (subdir .analysis) none (writer .analysis)
  match plugin with
  | some p => storePositions b p G
  | none => G

/-- The end of `input_thread`. -/
def exitThread (b : Basename) (rmCpTerminate : Bool) (p : OutputPlugin) (G : Globals δ) : Globals δ :=
  let G := storePositions b p G
  if !p.localStop && rmCpTerminate then removeCheckpointQ b p.readQueue G else G

/-- An instance before its thread starts, with the positions of its readers `input` and `analysis`. -/
structure Instance where
  plugin : OutputPlugin
  reader : CheckpointPair

/-- `create_output_plugin` and `hs_init_input`. -/
def Instance.create (rq : ReadQueue) (asyncLen tickerInterval tickerExpires : Nat) : Instance where
  plugin := OutputPlugin.create rq asyncLen tickerInterval tickerExpires ⟨⟨0, 0⟩, ⟨0, 0⟩⟩
  reader := ⟨⟨0, 0⟩, ⟨0, 0⟩⟩

def Instance.start (i : Instance) (q : Queue) (cp : Checkpoint) : Instance where
  plugin := { i.plugin with cur := i.plugin.cur.set q cp, cp := i.plugin.cp.set q cp }
  reader := i.reader.set q cp

/-- One queue in `add_to_output_plugins`; the argument of `remove_checkpoint_q` is the queue's own
letter. -/
def syncQueue (dirs : List UInt8 → Option Dir) (path : Option (List UInt8)) (b : Basename) (q : Queue)
    (s : Globals δ × Instance) : Option (Globals δ × Instance) :=
  if s.2.plugin.readQueue.reads q then
    (hsLookupInputCheckpoint dirs s.1 (subdir q) (some (pluginName b)) path (s.2.reader.get q)).map
      fun cp => (s.1, s.2.start q cp)
  else
    some (removeCheckpointQ b (match q with | .input => .input | .analysis => .analysis) s.1, s.2)

/-- `add_to_output_plugins` from "sync the output and read checkpoints" on; `none` when the process
ends. -/
def addToOutputPlugins (dirs : List UInt8 → Option Dir) (path : Option (List UInt8)) (b : Basename)
    (G : Globals δ) (i : Instance) : Option (Globals δ × Instance) :=
  (syncQueue dirs path b .input (G, i)).bind (syncQueue dirs path b .analysis)

/-! ## The machine -/

/-- The store and the loaded instance, with its `rm_cp_terminate`. -/
structure State (δ : Type) where
  globals : Globals δ
  plugin : Option OutputPlugin
  rmCpTerminate : Bool

/-- `other` stands for the rest of the process, which stores and removes entries of its own. -/
inductive Event (δ : Type) where
  | plugin (e : OpEvent)
  | pass (writer : Queue → Checkpoint)
  | other (key : List UInt8) (v : LuaValue δ)
  | exit
  | removeCheckpoints
  | load (rq : ReadQueue) (asyncLen tickerInterval tickerExpires : Nat) (rmCpTerminate : Bool)

section

variable (dirs : List UInt8 → Option Dir) (b : Basename)

def step (s : State δ) : Event δ → Option (State δ)
  | .plugin e =>
    match s.plugin with
    | some p => (p.step e).map fun p' => { s with plugin := some p' }
    | none => none
  | .pass writer => some { s with globals := hsWriteCheckpoints b s.plugin writer s.globals }
  | .other key v =>
    if key ≠ ownKey b .input ∧ key ≠ ownKey b .analysis then
      some { s with globals := Function.update s.globals key v }
    else none
  | .exit =>
    match s.plugin with
    | some p =>
      if p.pc = .exited then
        some { s with globals := exitThread b s.rmCpTerminate p s.globals, plugin := none }
      else none
    | none => none
  | .removeCheckpoints =>
    match s.plugin with
    | some _ => none
    | none => some { s with globals := removeCheckpointQ b .both s.globals }
  | .load rq asyncLen tickerInterval tickerExpires rm =>
    match s.plugin with
    | some _ => none
    | none =>
      (addToOutputPlugins dirs none b s.globals
        (Instance.create rq asyncLen tickerInterval tickerExpires)).map fun r =>
          ⟨r.1, some r.2.plugin, rm⟩

/-- A stopped instance as it ended, the store at the load and the instance made there. -/
structure HandOff (δ : Type) where
  old : OutputPlugin
  globals : Globals δ
  new : Instance

/-- `final`: the instance that was stopped and is not loaded again yet. -/
structure Ledger (δ : Type) where
  final : Option OutputPlugin
  last : Option (HandOff δ)

/-- The observer. An instance that ended by itself is not reloaded. -/
def Ledger.see (s : State δ) (l : Ledger δ) : Event δ → Ledger δ
  | .exit => { l with final := s.plugin.filter fun p => p.localStop }
  | .removeCheckpoints => { l with final := none }
  | .load rq asyncLen tickerInterval tickerExpires _ =>
    { final := none
      last := do
        let old ← l.final
        let (_, new) ← addToOutputPlugins dirs none b s.globals
          (Instance.create rq asyncLen tickerInterval tickerExpires)
        return ⟨old, s.globals, new⟩ }
  | .plugin _ | .pass _ | .other _ _ => l

end

/-- The three positions of an instance in a queue. -/
def Instance.StartsAt (i : Instance) (q : Queue) (cp : Checkpoint) : Prop :=
  i.reader.get q = cp ∧ i.plugin.cur.get q = cp ∧ i.plugin.cp.get q = cp

/-- The text of the position can be read back. -/
def Small (cp : Checkpoint) : Prop := cp.id < 10 ^ 14 ∧ cp.offset < 10 ^ 14

structure HandOff.Resumes (b : Basename) (h : HandOff δ) : Prop where
  resumes : ∀ q, h.old.readQueue.reads q = true → h.new.plugin.readQueue.reads q = true →
    Small (h.old.cp.get q) → h.new.StartsAt q (h.old.cp.get q)
  writer : ∀ q cp, h.new.plugin.readQueue.reads q = true → h.globals (ownKey b q) = .nil →
    h.globals (entryKey (subdir q) none) = .str (positionText cp) → Small cp → h.new.StartsAt q cp

def Safe (b : Basename) (s : State δ × Ledger δ) : Prop :=
  ∀ h ∈ s.2.last, h.Resumes b ∧
    ∀ q, h.old.readQueue.reads q = true → h.new.plugin.readQueue.reads q = false →
      s.1.globals (ownKey b q) = .nil

def Admits (b : Basename) (s : State δ × Ledger δ) : Event δ → Prop
  | .load rq _ _ _ _ =>
    ∀ old ∈ s.2.final, ∀ q, old.readQueue.reads q = true → rq.reads q = false →
      (ownKey b q).length < hsMaxPath
  | _ => True

/-! ## Keys -/

section

variable (b : Basename)

/-- The keys of a queue begin with its letter. -/
theorem head_ownKey (q : Queue) : (ownKey b q).head? = (subdir q).head? := by
  cases q <;> rfl

theorem head_snprintf (q : Queue) : (snprintf (ownKey b q)).head? = (subdir q).head? := by
  cases q <;> rfl

theorem head_subdir_ne {q r : Queue} (h : q ≠ r) : (subdir q).head? ≠ (subdir r).head? := by
  cases q <;> cases r <;> first | exact absurd rfl h | decide

theorem ownKey_ne {q r : Queue} (h : q ≠ r) : ownKey b q ≠ ownKey b r := by
  intro he
  have hhead := congrArg List.head? he
  rw [head_ownKey, head_ownKey] at hhead
  exact head_subdir_ne h hhead

/-- The entry of the writer of a queue is not one of the plugin's. -/
theorem ownKey_ne_subdir (q r : Queue) : ownKey b q ≠ entryKey (subdir r) none := by
  by_cases h : q = r
  · subst h
    intro he
    have hlen := congrArg List.length he
    simp [ownKey, entryKey] at hlen
  · intro he
    have hhead := congrArg List.head? he
    rw [head_ownKey] at hhead
    exact head_subdir_ne h hhead

/-- A key that fits is not cut. -/
theorem snprintf_eq_self {text : List UInt8} : snprintf text = text ↔ text.length < hsMaxPath := by
  rw [snprintf, List.take_eq_self_iff]
  exact Nat.le_sub_one_iff_lt (by decide)

end

/-! ## Storing and removing -/

section

variable (b : Basename) (G : Globals δ) (q : Queue)

theorem storeEntry_of_ne (p : OutputPlugin) {k : List UInt8} (h : k ≠ ownKey b q) :
    storeEntry b p G q k = G k := by
  unfold storeEntry
  split
  · exact update_frame _ _ _ _ h
  · rfl

theorem storeEntry_ownKey (p : OutputPlugin) :
    storeEntry b p G q (ownKey b q) =
      if p.readQueue.reads q then .str (positionText (p.cp.get q)) else G (ownKey b q) := by
  unfold storeEntry
  split
  · exact Function.update_self _ _ _
  · rfl

theorem storePositions_ownKey (p : OutputPlugin) :
    storePositions b p G (ownKey b q) =
      if p.readQueue.reads q then .str (positionText (p.cp.get q)) else G (ownKey b q) := by
  cases q with
  | input =>
    rw [storePositions, storeEntry_of_ne _ _ _ _ (ownKey_ne b (by decide)), storeEntry_ownKey]
  | analysis =>
    rw [storePositions, storeEntry_ownKey, storeEntry_of_ne _ _ _ _ (ownKey_ne b (by decide))]

/-- A pass leaves the entry of a queue that the plugin does not read. -/
theorem write_ownKey {plugin : Option OutputPlugin} (writer : Queue → Checkpoint)
    (h : ∀ p ∈ plugin, p.readQueue.reads q = false) :
    hsWriteCheckpoints b plugin writer G (ownKey b q) = G (ownKey b q) := by
  have hwriters : hsUpdateInputCheckpoint (hsUpdateInputCheckpoint G (subdir .input) none
      (writer .input)) (subdir .analysis) none (writer .analysis) (ownKey b q) = G (ownKey b q) := by
    rw [update_frame _ _ _ _ (ownKey_ne_subdir b q .analysis),
      update_frame _ _ _ _ (ownKey_ne_subdir b q .input)]
  cases plugin with
  | none => exact hwriters
  | some p =>
    have hp : p.readQueue.reads q = false := h p rfl
    change storePositions b p _ (ownKey b q) = _
    rw [storePositions_ownKey, hp]
    exact hwriters

theorem removeEntry_nil (rq : ReadQueue) {k : List UInt8} (h : G k = .nil) :
    removeEntry b rq G q k = .nil := by
  unfold removeEntry
  split
  · rw [hsRemoveCheckpoint, Function.update_apply]
    split
    · rfl
    · exact h
  · exact h

theorem removeCheckpointQ_nil (rq : ReadQueue) {k : List UInt8} (h : G k = .nil) :
    removeCheckpointQ b rq G k = .nil :=
  removeEntry_nil b _ _ _ (removeEntry_nil b _ _ _ h)

/-- The end of the thread stores nothing for a queue that the plugin does not read. -/
theorem exit_nil (rm : Bool) {p : OutputPlugin} (hp : p.readQueue.reads q = false)
    (h : G (ownKey b q) = .nil) : exitThread b rm p G (ownKey b q) = .nil := by
  have hstore : storePositions b p G (ownKey b q) = .nil := by
    rw [storePositions_ownKey, hp]
    exact h
  simp only [exitThread]
  split
  · exact removeCheckpointQ_nil b _ _ hstore
  · exact hstore

/-- A thread that was stopped leaves its positions in the store. -/
theorem exit_stopped (rm : Bool) {p : OutputPlugin} (hp : p.readQueue.reads q = true)
    (hstop : p.localStop = true) :
    exitThread b rm p G (ownKey b q) = .str (positionText (p.cp.get q)) := by
  rw [exitThread, hstop, Bool.not_true, Bool.false_and, if_neg Bool.false_ne_true,
    storePositions_ownKey, hp, if_pos rfl]

end

/-! ## Loading -/

section

variable (dirs : List UInt8 → Option Dir) (b : Basename) (G : Globals δ)

/-- Where a dynamic load starts in a queue: the own entry, else the writer's, else the beginning. -/
def startPosition (q : Queue) : Checkpoint :=
  (readPosition (G (ownKey b q))).getD ((readPosition (G (entryKey (subdir q) none))).getD ⟨0, 0⟩)

theorem lookup_dynamic (q : Queue) :
    hsLookupInputCheckpoint dirs G (subdir q) (some (pluginName b)) none ⟨0, 0⟩ =
      some (startPosition b G q) := by
  unfold hsLookupInputCheckpoint startPosition ownKey
  cases readPosition (G (entryKey (subdir q) (some (pluginName b)))) <;> rfl

/-- The start depends on the keys of the queue alone. -/
theorem startPosition_congr {G' : Globals δ} {q : Queue}
    (h : ∀ k, k.head? = (subdir q).head? → G' k = G k) :
    startPosition b G' q = startPosition b G q := by
  have hwriter : (entryKey (subdir q) none).head? = (subdir q).head? := rfl
  rw [startPosition, h _ (head_ownKey b q), h _ hwriter, startPosition]

theorem hsRemoveCheckpoint_of_head {q r : Queue} (hqr : q ≠ r) {k : List UInt8}
    (h : k.head? = (subdir q).head?) :
    hsRemoveCheckpoint G (snprintf (ownKey b r)) k = G k := by
  refine Function.update_of_ne (fun hk => ?_) _ _
  rw [hk, head_snprintf] at h
  exact head_subdir_ne hqr h.symm

/-- The removal meets the entry exactly when the key fits into the buffer. -/
theorem hsRemoveCheckpoint_ownKey {q : Queue} (h : G (ownKey b q) ≠ .nil) :
    hsRemoveCheckpoint G (snprintf (ownKey b q)) (ownKey b q) = .nil ↔
      (ownKey b q).length < hsMaxPath := by
  rw [← snprintf_eq_self, hsRemoveCheckpoint, Function.update_apply]
  constructor
  · intro hnil
    by_contra hcut
    rw [if_neg (Ne.symm hcut)] at hnil
    exact h hnil
  · intro hfits
    rw [if_pos hfits.symm]

theorem Instance.start_startsAt (i : Instance) (q : Queue) (cp : Checkpoint) :
    (i.start q cp).StartsAt q cp :=
  ⟨CheckpointPair.get_set_same _ _ _, CheckpointPair.get_set_same _ _ _,
    CheckpointPair.get_set_same _ _ _⟩

theorem Instance.start_other {i : Instance} {q r : Queue} {cp : Checkpoint} (c : Checkpoint)
    (hqr : q ≠ r) (h : i.StartsAt q cp) : (i.start r c).StartsAt q cp := by
  obtain ⟨hreader, hcur, hcp⟩ := h
  exact ⟨(CheckpointPair.get_set_other _ _ hqr).trans hreader,
    (CheckpointPair.get_set_other _ _ hqr).trans hcur,
    (CheckpointPair.get_set_other _ _ hqr).trans hcp⟩

/-- What a dynamic load makes of the store and of the instance. -/
structure Loads (rq : ReadQueue) (r : Globals δ × Instance) : Prop where
  readQueue : r.2.plugin.readQueue = rq
  starts : ∀ q, rq.reads q = true → r.2.StartsAt q (startPosition b G q)
  removed : ∀ q, rq.reads q = false → G (ownKey b q) ≠ .nil →
    (r.1 (ownKey b q) = .nil ↔ (ownKey b q).length < hsMaxPath)

/-- A dynamic load does not end the process. -/
theorem load_loads (rq : ReadQueue) (asyncLen tickerInterval tickerExpires : Nat) :
    ∃ r, addToOutputPlugins dirs none b G
        (Instance.create rq asyncLen tickerInterval tickerExpires) = some r ∧ Loads b G rq r := by
  cases rq with
  | both =>
    refine ⟨(G, ((Instance.create .both asyncLen tickerInterval tickerExpires).start .input
      (startPosition b G .input)).start .analysis (startPosition b G .analysis)), ?_, rfl, ?_, ?_⟩
    · have hinput := lookup_dynamic dirs b G .input
      have hanalysis := lookup_dynamic dirs b G .analysis
      simp only [addToOutputPlugins, syncQueue, Instance.create, Instance.start, OutputPlugin.create,
        ReadQueue.reads, if_true, CheckpointPair.get, CheckpointPair.set, hinput, hanalysis,
        Option.map_some, Option.bind_some]
    · intro q _
      cases q with
      | input => exact Instance.start_other _ (by decide) (Instance.start_startsAt _ _ _)
      | analysis => exact Instance.start_startsAt _ _ _
    · intro q hq
      cases hq
  | input =>
    refine ⟨(hsRemoveCheckpoint G (snprintf (ownKey b .analysis)),
      (Instance.create .input asyncLen tickerInterval tickerExpires).start .input
        (startPosition b G .input)), ?_, rfl, ?_, ?_⟩
    · have hinput := lookup_dynamic dirs b G .input
      simp only [addToOutputPlugins, syncQueue, Instance.create, OutputPlugin.create, ReadQueue.reads,
        if_true, CheckpointPair.get, hinput, Option.map_some, Option.bind_some]
      rfl
    · intro q hq
      cases q with
      | input => exact Instance.start_startsAt _ _ _
      | analysis => cases hq
    · intro q hq hG
      cases q with
      | input => cases hq
      | analysis => exact hsRemoveCheckpoint_ownKey b G hG
  | analysis =>
    refine ⟨(hsRemoveCheckpoint G (snprintf (ownKey b .input)),
      (Instance.create .analysis asyncLen tickerInterval tickerExpires).start .analysis
        (startPosition b G .analysis)), ?_, rfl, ?_, ?_⟩
    · have hanalysis : hsLookupInputCheckpoint dirs (hsRemoveCheckpoint G (snprintf (ownKey b .input)))
          (subdir .analysis) (some (pluginName b)) none ⟨0, 0⟩ =
            some (startPosition b G .analysis) := by
        rw [lookup_dynamic, startPosition_congr b G fun k hk =>
          hsRemoveCheckpoint_of_head b G (by decide) hk]
      change (syncQueue dirs none b .analysis (hsRemoveCheckpoint G (snprintf (ownKey b .input)),
        Instance.create .analysis asyncLen tickerInterval tickerExpires)) = _
      simp only [syncQueue, Instance.create, OutputPlugin.create, ReadQueue.reads, if_true,
        CheckpointPair.get, hanalysis, Option.map_some]
    · intro q hq
      cases q with
      | input => cases hq
      | analysis => exact Instance.start_startsAt _ _ _
    · intro q hq hG
      cases q with
      | input => exact hsRemoveCheckpoint_ownKey b G hG
      | analysis => cases hq

theorem Loads.of_add {rq : ReadQueue} {asyncLen tickerInterval tickerExpires : Nat}
    {r : Globals δ × Instance} (h : addToOutputPlugins dirs none b G
      (Instance.create rq asyncLen tickerInterval tickerExpires) = some r) : Loads b G rq r := by
  obtain ⟨r', hr, hl⟩ := load_loads dirs b G rq asyncLen tickerInterval tickerExpires
  obtain rfl : r' = r := Option.some.inj (hr.symm.trans h)
  exact hl

end

theorem readPosition_small {cp : Checkpoint} (h : Small cp) :
    readPosition (.str (positionText cp) : LuaValue δ) = some cp := by
  have hback := (roundTrips_iff (fun _ => none) (fun _ => .nil) (subdir .input) none none cp ⟨0, 0⟩
    (δ := δ)).mpr h
  rw [readPosition_positionText]
  exact (lookup_update _ _ _ _ _ _ _).symm.trans hback.1

section

variable {b : Basename} {G : Globals δ} {q : Queue} {cp : Checkpoint}

/-- A stored position that can be read back is where the load starts. -/
theorem startPosition_own (hcp : Small cp) (h : G (ownKey b q) = .str (positionText cp)) :
    startPosition b G q = cp := by
  rw [startPosition, h, readPosition_small hcp]
  rfl

theorem startPosition_writer (hcp : Small cp) (hown : G (ownKey b q) = .nil)
    (h : G (entryKey (subdir q) none) = .str (positionText cp)) : startPosition b G q = cp := by
  rw [startPosition, hown, h, readPosition_small hcp]
  rfl

end

/-! ## Runs -/

/-- A plugin keeps its `read_queue`. -/
theorem step_readQueue {p p' : OutputPlugin} {e : OpEvent} (h : p.step e = some p') :
    p'.readQueue = p.readQueue := by
  by_cases he : OutputStreams.own e = true
  · exact (OutputStreams.own_step he h).readQueue
  cases e with
  | openFirst q => rw [OutputPlugin.step_openFirst h]
  | reset q c => rw [(OutputPlugin.step_reset h).2]
  | deliver q c =>
    obtain ⟨-, -, -, rfl⟩ := OutputPlugin.step_deliver h
    rfl
  | idle | nothing =>
    simp only [OutputPlugin.step, Option.ite_none_right_eq_some, Option.some.injEq] at h
    rw [← h.2]
  | _ => exact absurd rfl he

section

variable {dirs : List UInt8 → Option Dir} {b : Basename} {s s' : State δ} {l : Ledger δ}

/-- A stopped instance that is not loaded again has its positions in the store; a loaded one reads what
it was loaded to read. -/
structure Inv (b : Basename) (s : State δ × Ledger δ) : Prop where
  stored : ∀ old ∈ s.2.final, s.1.plugin = none ∧ ∀ q, old.readQueue.reads q = true →
    s.1.globals (ownKey b q) = .str (positionText (old.cp.get q))
  readQueue : ∀ h ∈ s.2.last, ∀ p ∈ s.1.plugin, p.readQueue = h.new.plugin.readQueue

theorem step_plugin {e : OpEvent} (h : step dirs b s (.plugin e) = some s') :
    ∃ p p', s.plugin = some p ∧ p.step e = some p' ∧ s' = { s with plugin := some p' } := by
  simp only [step] at h
  split at h
  · rename_i p hp
    obtain ⟨p', hstep, rfl⟩ := Option.map_eq_some_iff.mp h
    exact ⟨p, p', hp, hstep, rfl⟩
  · cases h

theorem step_other {key : List UInt8} {v : LuaValue δ} (h : step dirs b s (.other key v) = some s') :
    (key ≠ ownKey b .input ∧ key ≠ ownKey b .analysis) ∧
      s' = { s with globals := Function.update s.globals key v } := by
  simp only [step, Option.ite_none_right_eq_some, Option.some.injEq] at h
  exact ⟨h.1, h.2.symm⟩

theorem step_exit (h : step dirs b s .exit = some s') :
    ∃ p, s.plugin = some p ∧ p.pc = .exited ∧
      s' = { s with globals := exitThread b s.rmCpTerminate p s.globals, plugin := none } := by
  simp only [step] at h
  split at h
  · rename_i p hp
    simp only [Option.ite_none_right_eq_some, Option.some.injEq] at h
    exact ⟨p, hp, h.1, h.2.symm⟩
  · cases h

theorem step_removeCheckpoints (h : step dirs b s .removeCheckpoints = some s') :
    s.plugin = none ∧ s' = { s with globals := removeCheckpointQ b .both s.globals } := by
  simp only [step] at h
  split at h
  · cases h
  · rename_i hp
    cases h
    exact ⟨hp, rfl⟩

/-- The rest of the process leaves the plugin's entries alone. -/
theorem other_ownKey {G : Globals δ} {key : List UInt8} (v : LuaValue δ)
    (h : key ≠ ownKey b .input ∧ key ≠ ownKey b .analysis) (q : Queue) :
    Function.update G key v (ownKey b q) = G (ownKey b q) := by
  refine Function.update_of_ne ?_ _ _
  cases q with
  | input => exact Ne.symm h.1
  | analysis => exact Ne.symm h.2

/-- A step that is not a load keeps the entries that are gone. -/
theorem step_gone {e : Event δ} {q : Queue} (h : step dirs b s e = some s')
    (hload : ∀ rq asyncLen tickerInterval tickerExpires rm,
      e ≠ .load rq asyncLen tickerInterval tickerExpires rm)
    (hrq : ∀ p ∈ s.plugin, p.readQueue.reads q = false) (hG : s.globals (ownKey b q) = .nil) :
    s'.globals (ownKey b q) = .nil := by
  cases e with
  | plugin e =>
    obtain ⟨p, p', -, -, rfl⟩ := step_plugin h
    exact hG
  | pass writer =>
    cases h
    exact (write_ownKey b _ q writer hrq).trans hG
  | other key v =>
    obtain ⟨hkey, rfl⟩ := step_other h
    exact (other_ownKey v hkey q).trans hG
  | exit =>
    obtain ⟨p, hp, -, rfl⟩ := step_exit h
    exact exit_nil b _ q _ (hrq p hp) hG
  | removeCheckpoints =>
    obtain ⟨-, rfl⟩ := step_removeCheckpoints h
    exact removeCheckpointQ_nil b s.globals .both hG
  | load rq asyncLen tickerInterval tickerExpires rm => exact absurd rfl (hload _ _ _ _ _)

/-- What a load does to the store, the instance and the ledger. -/
theorem step_load {rq : ReadQueue} {asyncLen tickerInterval tickerExpires : Nat} {rm : Bool}
    (h : step dirs b s (.load rq asyncLen tickerInterval tickerExpires rm) = some s') :
    ∃ r, Loads b s.globals rq r ∧ s' = ⟨r.1, some r.2.plugin, rm⟩ ∧
      Ledger.see dirs b s l (.load rq asyncLen tickerInterval tickerExpires rm) =
        ⟨none, l.final.map fun old => ⟨old, s.globals, r.2⟩⟩ := by
  simp only [step] at h
  split at h
  · cases h
  · obtain ⟨r, hr, rfl⟩ := Option.map_eq_some_iff.mp h
    refine ⟨r, .of_add dirs b _ hr, rfl, ?_⟩
    simp only [Ledger.see, hr, Option.bind_eq_bind, Option.bind_some]
    cases l.final <;> rfl

theorem step_inv {e : Event δ} (hI : Inv b (s, l)) (h : step dirs b s e = some s') :
    Inv b (s', Ledger.see dirs b s l e) := by
  cases e with
  | plugin e =>
    obtain ⟨p, p', hp, hstep, rfl⟩ := step_plugin h
    constructor
    · intro old hold
      have hnone : s.plugin = none := (hI.stored old hold).1
      rw [hp] at hnone
      cases hnone
    · intro ho hlast t ht
      obtain rfl : p' = t := Option.some.inj ht
      exact (step_readQueue hstep).trans (hI.readQueue ho hlast p hp)
  | pass writer =>
    cases h
    refine ⟨fun old hold => ?_, hI.readQueue⟩
    obtain ⟨hnone, hstored⟩ := hI.stored old hold
    refine ⟨hnone, fun q hq => (write_ownKey b _ q writer fun p hp => ?_).trans (hstored q hq)⟩
    cases hp.symm.trans hnone
  | other key v =>
    obtain ⟨hkey, rfl⟩ := step_other h
    refine ⟨fun old hold => ?_, hI.readQueue⟩
    obtain ⟨hnone, hstored⟩ := hI.stored old hold
    exact ⟨hnone, fun q hq => (other_ownKey v hkey q).trans (hstored q hq)⟩
  | exit =>
    obtain ⟨p, hp, -, rfl⟩ := step_exit h
    refine ⟨fun old hold => ?_, fun _ _ _ hnone => by cases hnone⟩
    obtain ⟨hold, hstop⟩ := Option.mem_filter_iff.mp hold
    obtain rfl : p = old := Option.some.inj (hp.symm.trans hold)
    exact ⟨rfl, fun q hq => exit_stopped b _ q _ hq hstop⟩
  | removeCheckpoints =>
    obtain ⟨-, rfl⟩ := step_removeCheckpoints h
    exact ⟨fun old hold => (by cases hold), hI.readQueue⟩
  | load rq asyncLen tickerInterval tickerExpires rm =>
    obtain ⟨r, hr, rfl, hsee⟩ := step_load (l := l) h
    rw [hsee]
    refine ⟨fun old hold => (by cases hold), fun ho hlast t ht => ?_⟩
    obtain rfl : r.2.plugin = t := Option.some.inj ht
    obtain ⟨old, -, rfl⟩ := Option.map_eq_some_iff.mp hlast
    rfl

/-- A load of a stopped instance is as it should be exactly when it is admitted. -/
theorem load_safe {rq : ReadQueue} {asyncLen tickerInterval tickerExpires : Nat} {rm : Bool}
    (hI : Inv b (s, l)) (h : step dirs b s (.load rq asyncLen tickerInterval tickerExpires rm) = some s') :
    Safe b (s', Ledger.see dirs b s l (.load rq asyncLen tickerInterval tickerExpires rm)) ↔
      Admits b (s, l) (.load rq asyncLen tickerInterval tickerExpires rm) := by
  obtain ⟨r, hr, rfl, hsee⟩ := step_load (l := l) h
  have hstored : ∀ old ∈ l.final, ∀ q, old.readQueue.reads q = true →
      s.globals (ownKey b q) = .str (positionText (old.cp.get q)) :=
    fun old hold => (hI.stored old hold).2
  have hremoved : ∀ old ∈ l.final, ∀ q, old.readQueue.reads q = true → rq.reads q = false →
      (r.1 (ownKey b q) = .nil ↔ (ownKey b q).length < hsMaxPath) := by
    intro old hold q hq hrq
    refine hr.removed q hrq ?_
    rw [hstored old hold q hq]
    exact fun hnil => (by cases hnil)
  rw [hsee]
  constructor
  · intro hS old hold q hq hrq
    have hgone : r.1 (ownKey b q) = .nil := by
      refine (hS ⟨old, s.globals, r.2⟩ (Option.map_eq_some_iff.mpr ⟨old, hold, rfl⟩)).2 q hq ?_
      rw [hr.readQueue]
      exact hrq
    exact (hremoved old hold q hq hrq).mp hgone
  · intro hA ho hlast
    obtain ⟨old, hold, rfl⟩ := Option.map_eq_some_iff.mp hlast
    refine ⟨⟨fun q hq hnew hcp => ?_, fun q cp hnew hown hwriter hcp => ?_⟩, fun q hq hnew => ?_⟩
    · have hstart := hr.starts q (hr.readQueue ▸ hnew)
      rwa [startPosition_own hcp (hstored old hold q hq)] at hstart
    · have hstart := hr.starts q (hr.readQueue ▸ hnew)
      rwa [startPosition_writer hcp hown hwriter] at hstart
    · have hrq : rq.reads q = false := hr.readQueue ▸ hnew
      exact (hremoved old hold q hq hrq).mpr (hA old hold q hq hrq)

theorem step_safe {e : Event δ} (hI : Inv b (s, l)) (hS : Safe b (s, l))
    (h : step dirs b s e = some s') :
    Safe b (s', Ledger.see dirs b s l e) ↔ Admits b (s, l) e := by
  have hkeep : (∀ rq asyncLen tickerInterval tickerExpires rm,
      e ≠ .load rq asyncLen tickerInterval tickerExpires rm) →
        ∀ ho ∈ l.last, ho.Resumes b ∧ ∀ q, ho.old.readQueue.reads q = true →
          ho.new.plugin.readQueue.reads q = false → s'.globals (ownKey b q) = .nil := by
    intro hload ho hlast
    refine ⟨(hS ho hlast).1, fun q hq hnew => ?_⟩
    refine step_gone h hload (fun p hp => ?_) ((hS ho hlast).2 q hq hnew)
    rw [hI.readQueue ho hlast p hp]
    exact hnew
  cases e with
  | load rq asyncLen tickerInterval tickerExpires rm => exact load_safe hI h
  | plugin | pass | other | exit | removeCheckpoints =>
    exact iff_of_true (hkeep fun _ _ _ _ _ he => by cases he) trivial

end

/-- A run from any state of the plugin and of the store: every reload resumes where the plugin stopped
exactly when the keys of the queues that are given up fit into the buffer. -/
theorem reload_iff (dirs : List UInt8 → Option Dir) (b : Basename) (G : Globals δ) (p : OutputPlugin)
    (rm : Bool) (es : List (Event δ)) :
    Runs.Always (Runs.observe (step dirs b) (Ledger.see dirs b)) (Safe b)
        (⟨G, some p, rm⟩, ⟨none, none⟩) es ↔
      Runs.Meets (Runs.observe (step dirs b) (Ledger.see dirs b)) (Admits b)
        (⟨G, some p, rm⟩, ⟨none, none⟩) es := by
  refine Runs.always_iff_meets (I := Inv b) ?_ ?_ ?_ ?_ es
  · rintro ⟨s, l⟩ e ⟨s', l'⟩ hI h
    obtain ⟨h, hl⟩ := Runs.observe_some.mp h
    obtain rfl : l' = _ := hl
    exact step_inv hI h
  · rintro ⟨s, l⟩ e ⟨s', l'⟩ hI hS h
    obtain ⟨h, hl⟩ := Runs.observe_some.mp h
    obtain rfl : l' = _ := hl
    exact step_safe hI hS h
  · exact ⟨fun old hold => (by cases hold), fun ho hlast => (by cases hlast)⟩
  · exact fun ho hlast => by cases hlast

/-- A plugin with a name of 243 bytes that read both queues is loaded again for the input queue: the key
of its analysis entry takes 260 bytes. -/
theorem reload_fails :
    ¬ ∀ (dirs : List UInt8 → Option Dir) (b : Basename) (G : Globals Nat) (p : OutputPlugin) (rm : Bool)
      (es : List (Event Nat)),
      Runs.Always (Runs.observe (step dirs b) (Ledger.see dirs b)) (Safe b)
        (⟨G, some p, rm⟩, ⟨none, none⟩) es := by
  intro h
  obtain ⟨b, hb⟩ : ∃ b : Basename, (ownKey b .analysis).length = hsMaxPath := by
    refine ⟨⟨List.replicate 243 97, by decide, fun h0 => absurd (List.eq_of_mem_replicate h0) (by decide),
      fun h47 => absurd (List.eq_of_mem_replicate h47) (by decide)⟩, ?_⟩
    simp only [ownKey, entryKey, pluginName, Reader.name, List.length_append, List.length_replicate]
    rfl
  let p := OutputPlugin.create .both 0 0 0 ⟨⟨0, 0⟩, ⟨0, 0⟩⟩
  let last := { p with stop := true, localStop := true, pc := .exited }
  let G : Globals Nat := exitThread b false last fun _ => .nil
  let dirs : List UInt8 → Option Dir := fun _ => none
  have hexit : Runs.Always (Runs.observe (step dirs b) (Ledger.see dirs b)) (Safe b)
      (⟨G, none, false⟩, ⟨some last, none⟩) [.load .input 0 0 0 false] := by
    have hrun := h dirs b (fun _ => .nil) p false
      [.plugin .stop, .plugin .head, .plugin .nothing, .plugin .head, .plugin .shutdownReturn, .exit,
        .load .input 0 0 0 false]
    exact (((((hrun.2 _ rfl).2 _ rfl).2 _ rfl).2 _ rfl).2 _ rfl).2 _ rfl
  obtain ⟨r, hr, hl⟩ := load_loads dirs b G .input 0 0 0
  have hload : Runs.observe (step dirs b) (Ledger.see dirs b) (⟨G, none, false⟩, ⟨some last, none⟩)
      (.load .input 0 0 0 false) =
        some (⟨r.1, some r.2.plugin, false⟩, ⟨none, some ⟨last, G, r.2⟩⟩) := by
    simp only [Runs.observe, step, Ledger.see, hr, Option.map_some, Option.bind_eq_bind, Option.bind_some]
    rfl
  have hgone : r.1 (ownKey b .analysis) = .nil :=
    ((hexit.2 _ hload) _ rfl).2 .analysis rfl (by rw [hl.readQueue]; rfl)
  have hstored : G (ownKey b .analysis) = .str (positionText ⟨0, 0⟩) :=
    exit_stopped b _ .analysis false rfl rfl
  have hfits := (hl.removed .analysis rfl (by rw [hstored]; exact fun hnil => by cases hnil)).mp hgone
  rw [hb] at hfits
  exact lt_irrefl _ hfits

end OutputReload

end Hindsight
