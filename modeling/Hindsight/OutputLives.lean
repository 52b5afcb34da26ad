import Hindsight.OutputReload
import Hindsight.OutputSync
import Hindsight.ServiceLives

/-!
# Hindsight.OutputLives

A synchronous or batching output plugin over any number of lives of the process. It is stopped and loaded again
with other options, it terminates, and the process ends anywhere, killed or after its last pass of
`hs_write_checkpoints`, and starts from the positions that were persisted. The text of a position can be read
back and the keys fit their buffers. The messages of a queue are given by their ends.

An observer keeps all delivered messages with what has become of them, and for each copy of the plugin's
positions from where the readers have come to it.

* `Safe`: every message on the way to a persisted position is settled, and no instance is given a message twice.
* `Admits`: the readers hand out the messages of a queue one after the other, and `update_checkpoint()` is not
  called in an open batch while a delivered message is still to be sent.
* `deliveries_safe`: every run whose steps are admitted.
-/

namespace Hindsight

namespace OutputLives

open Replay
open ServiceLives (IsNext)

/-! ## The functions -/

/-- The positions in the store: the plugin's own, and those of the writers of the queues. -/
structure Positions where
  own : Queue → Option Checkpoint
  writer : Queue → Option Checkpoint

/-- `hs_lookup_input_checkpoint` with the key of the plugin; `first` is what `find_first_id` finds, where there
is a path to look in. -/
def hsLookupInputCheckpoint (pos : Positions) (first : Option (Queue → Nat)) (q : Queue) : Checkpoint :=
  match pos.own q with
  | some c => c
  | none =>
    match first with
    | some id => ⟨id q, 0⟩
    | none => (pos.writer q).getD ⟨0, 0⟩

structure Options where
  readQueue : ReadQueue
  tickerInterval : Nat
  tickerExpires : Nat
  rmCpTerminate : Bool
  deriving DecidableEq, Repr

/-- How far the end of `input_thread` is: it stores its positions, and removes them if it is told to. -/
inductive Ending where
  | running
  | stored
  | removed
  deriving DecidableEq, Repr

/-- A plugin in the list. -/
structure Loaded where
  plugin : OutputPlugin
  rmCpTerminate : Bool
  ending : Ending

/-- Where the readers of a new instance start. -/
def startPositions (o : Options) (first : Option (Queue → Nat)) (pos : Positions) : CheckpointPair :=
  let start q := if o.readQueue.reads q then hsLookupInputCheckpoint pos first q else ⟨0, 0⟩
  ⟨start .input, start .analysis⟩

/-- `add_to_output_plugins`. -/
def addToOutputPlugins (o : Options) (first : Option (Queue → Nat)) (pos : Positions) :
    Positions × Loaded :=
  ({ pos with own := fun q => if o.readQueue.reads q then pos.own q else none },
    ⟨OutputPlugin.create o.readQueue 0 o.tickerInterval o.tickerExpires (startPositions o first pos),
      o.rmCpTerminate, .running⟩)

/-- `output_stats` for the plugin; the end of its thread does the same. -/
def storePositions (i : Loaded) (pos : Positions) : Positions :=
  { pos with own := fun q => if i.plugin.readQueue.reads q then some (i.plugin.cp.get q) else pos.own q }

/-- `remove_checkpoint_q`. -/
def removeCheckpointQ (rq : ReadQueue) (pos : Positions) : Positions :=
  { pos with own := fun q => if rq.reads q then none else pos.own q }

def storeWriter (q : Queue) (c : Checkpoint) (pos : Positions) : Positions :=
  { pos with writer := Function.update pos.writer q (some c) }

/-! ## The machine -/

/-- Where `hs_write_checkpoints` is. -/
inductive Pass where
  | idle
  | analysisStats
  | outputStats
  | persist
  deriving DecidableEq, Repr

structure Process where
  loaded : Option Loaded
  store : Positions
  persisted : Positions
  pass : Pass

/-- The next step of `hs_write_checkpoints`; `writer` is where the writers of the queues are. -/
def Process.write (s : Process) (writer : Queue → Checkpoint) : Process :=
  match s.pass with
  | .idle => { s with store := storeWriter .input (writer .input) s.store, pass := .analysisStats }
  | .analysisStats =>
    { s with store := storeWriter .analysis (writer .analysis) s.store, pass := .outputStats }
  | .outputStats =>
    { s with
      store := match s.loaded with
        | some i => storePositions i s.store
        | none => s.store
      pass := .persist }
  | .persist => { s with persisted := s.store, pass := .idle }

/-- The next step of the end of `input_thread`. -/
def Process.endThread (s : Process) : Option Process :=
  match s.loaded with
  | none => none
  | some i =>
    match i.ending with
    | .running =>
      if i.plugin.pc = .exited then
        some { s with store := storePositions i s.store, loaded := some { i with ending := .stored } }
      else none
    | .stored =>
      if !i.plugin.localStop && i.rmCpTerminate then
        some { s with
          store := removeCheckpointQ i.plugin.readQueue s.store
          loaded := some { i with ending := .removed } }
      else some { s with loaded := none }
    | .removed => some { s with loaded := none }

/-- What a new process finds in the run directory: no configuration, one that does not load, or one that
does. -/
inductive Found where
  | nothing
  | broken
  | config (o : Options)
  deriving DecidableEq, Repr

/-- `hs_cleanup_checkpoints` for the entries of the plugin. -/
def hsCleanupCheckpoints (found : Found) (pos : Positions) : Positions :=
  if found = .nothing then { pos with own := fun _ => none } else pos

/-- `hs_load_output_startup`. -/
def boot (found : Found) (first : Queue → Nat) (persisted : Positions) : Process :=
  let store := hsCleanupCheckpoints found persisted
  match found with
  | .config o =>
    let (store, i) := addToOutputPlugins o (some first) store
    ⟨some i, store, persisted, .idle⟩
  | _ => ⟨none, store, persisted, .idle⟩

inductive Event where
  | plugin (e : OpEvent)
  | write (writer : Queue → Checkpoint)
  | endThread
  | load (o : Options)
  | removeCheckpoints
  | boot (found : Found) (first : Queue → Nat)

def lifeStep (s : Process) : Event → Option Process
  | .plugin e =>
    match s.loaded with
    | none => none
    | some i => (i.plugin.step e).map fun p => { s with loaded := some { i with plugin := p } }
  | .write writer => some (s.write writer)
  | .endThread => s.endThread
  | .load o =>
    if s.pass = .idle ∧ s.loaded.isNone then
      let (store, i) := addToOutputPlugins o none s.store
      some { s with loaded := some i, store := store }
    else none
  | .removeCheckpoints =>
    if s.pass = .idle ∧ s.loaded.isNone then
      some { s with store := removeCheckpointQ .both s.store }
    else none
  | .boot found first => some (boot found first s.persisted)

/-! ## The observer -/

/-- The delivered messages of the instance and those of each instance before it, and from where the readers have
come to the instance's positions, to the stored and to the persisted ones. -/
structure Ledger where
  sync : OutputSync.Ledger
  past : List (List OutputSync.Entry)
  origin : Queue → Checkpoint
  stored : Queue → Checkpoint
  saved : Queue → Checkpoint

/-- Where a message is. -/
def place (x : OutputSync.Entry) : Queue × Checkpoint := (x.queue, x.stop)

namespace Ledger

def all (l : Ledger) : List OutputSync.Entry := l.sync.entries ++ l.past.flatten

/-- The instance is gone. -/
def close (l : Ledger) : Ledger := { l with sync := ⟨[], false⟩, past := l.sync.entries :: l.past }

/-- A new instance: it has come the way of its entries, or starts one. -/
def opens (l : Ledger) (first : Option (Queue → Nat)) (pos : Positions) : Ledger :=
  { l with
    origin := fun q => if (pos.own q).isSome then l.stored q else hsLookupInputCheckpoint pos first q }

/-- The positions of the instance are stored. -/
def stores (l : Ledger) (rq : ReadQueue) : Ledger :=
  { l with stored := fun q => if rq.reads q then l.origin q else l.stored q }

def boot (l : Ledger) (found : Found) (first : Queue → Nat) (persisted : Positions) : Ledger :=
  let l := { l.close with stored := l.saved }
  match found with
  | .config _ => l.opens (some first) persisted
  | _ => l

/-- Before the first process. -/
def empty : Ledger := ⟨⟨[], false⟩, [], fun _ => ⟨0, 0⟩, fun _ => ⟨0, 0⟩, fun _ => ⟨0, 0⟩⟩

def settled (l : Ledger) (q : Queue) : Set Checkpoint :=
  {m | ∃ x ∈ l.all, x.queue = q ∧ x.stop = m ∧ x.fate = .settled}

end Ledger

def see (s : Process) (l : Ledger) : Event → Ledger
  | .plugin e =>
    match s.loaded with
    | none => l
    | some i =>
      { l with
        sync := OutputSync.Ledger.see i.plugin l.sync e
        origin := match e with
          | .reset q c => Function.update l.origin q c
          | _ => l.origin }
  | .write _ =>
    match s.pass, s.loaded with
    | .outputStats, some i => l.stores i.plugin.readQueue
    | .persist, _ => { l with saved := l.stored }
    | _, _ => l
  | .endThread =>
    match s.loaded with
    | none => l
    | some i =>
      match i.ending with
      | .running => l.stores i.plugin.readQueue
      | .stored => if !i.plugin.localStop && i.rmCpTerminate then l else l.close
      | .removed => l.close
  | .load _ => l.opens none s.store
  | .removeCheckpoints => l
  | .boot found first => l.boot found first s.persisted

abbrev State := Process × Ledger

def step : State → Event → Option State := Runs.observe lifeStep see

/-- The first process of all, with the positions of `persisted` taken as they are. -/
def start (persisted : Positions) (found : Found) (first : Queue → Nat) : State :=
  let l := { Ledger.empty with saved := fun q => (persisted.own q).getD ⟨0, 0⟩ }
  (boot found first persisted, l.boot found first persisted)

/-- The messages of both queues, by their ends. -/
abbrev Messages := Queue → List Checkpoint

structure Safe (ends : Messages) (s : State) : Prop where
  kept : ∀ q c, s.1.persisted.own q = some c →
    Covers {m | m ∈ ends q} (s.2.saved q) c (s.2.settled q)
  once : ∀ xs ∈ s.2.sync.entries :: s.2.past, (xs.map place).Nodup

def Admits (ends : Messages) (s : State) : Event → Prop
  | .plugin e => ∀ i ∈ s.1.loaded,
      (∀ q m, e = .deliver q m → IsNext (ends q) (i.plugin.cur.get q) m) ∧
        OutputSync.Admits (i.plugin, s.2.sync) e
  | _ => True

/-! ## One step of the plugin -/

section

open OutputSync (Entry)

variable {p p' : OutputPlugin} {l : OutputSync.Ledger} {e : OpEvent}

theorem place_commit (x : Entry) : place x.commit = place x := by
  simp only [place, OutputSync.commit_queue, OutputSync.commit_stop]

theorem places_commit : l.commit.entries.map place = l.entries.map place := by
  simp only [OutputSync.Ledger.commit, List.map_map]
  exact List.map_congr_left fun x _ => place_commit x

theorem places_markLast (f : OutputSync.Fate) :
    (l.markLast f).entries.map place = l.entries.map place := by
  unfold OutputSync.Ledger.markLast
  split
  · rfl
  · rename_i x xs hl
    simp only [hl, List.map_cons, place]

/-- Only a delivery adds a message. -/
theorem places_see (he : ∀ q m, e ≠ .deliver q m) :
    (OutputSync.Ledger.see p l e).entries.map place = l.entries.map place := by
  cases e with
  | deliver q m => exact absurd rfl (he q m)
  | matcher matched =>
    cases matched with
    | false => exact places_markLast _
    | true => rfl
  | callback seq => exact places_commit
  | pmReturn r =>
    cases r with
    | sent => exact places_commit.trans (places_markLast _)
    | fail | skip => exact places_markLast _
    | batch => exact places_markLast (l := l) .batched
    | retry | async | fatal => rfl
  | _ => rfl

theorem mem_commit {x : Entry} (hx : x ∈ l.entries) (hset : x.fate = .settled) :
    x ∈ l.commit.entries := by
  have hsame : x.commit = x := by
    unfold OutputSync.Entry.commit
    rw [hset]
    rfl
  exact List.mem_map.mpr ⟨x, hx, hsame⟩

/-- An answer is to the newest message, which is not settled. -/
theorem mem_markLast {x : Entry} {f : OutputSync.Fate}
    (hnew : ∃ y ys, l.entries = y :: ys ∧ y.fate = .offered) (hx : x ∈ l.entries)
    (hset : x.fate = .settled) : x ∈ (l.markLast f).entries := by
  obtain ⟨y, ys, hl, hy⟩ := hnew
  rw [OutputSync.markLast_cons hl]
  rw [hl] at hx
  rcases List.mem_cons.mp hx with rfl | hx
  · rw [hset] at hy
    cases hy
  · exact List.mem_cons_of_mem _ hx

/-- What is settled stays so. -/
theorem mem_see {x : Entry} (hI : OutputSync.Inv p l) (h : p.step e = some p') (hx : x ∈ l.entries)
    (hset : x.fate = .settled) : x ∈ (OutputSync.Ledger.see p l e).entries := by
  cases e with
  | deliver q m => exact List.mem_cons_of_mem _ hx
  | matcher matched =>
    cases matched with
    | true => exact hx
    | false =>
      obtain ⟨again, hpc, -⟩ := OutputPlugin.step_matcher h
      exact mem_markLast (hI.waiting (by simp [OutputPlugin.current, hpc])).2 hx hset
  | callback seq => exact mem_commit hx hset
  | pmReturn r =>
    obtain ⟨again, hpc, -⟩ := OutputPlugin.step_pmReturn h
    have hnew := (hI.waiting (by simp [OutputPlugin.current, hpc])).2
    cases r with
    | sent => exact mem_commit (mem_markLast hnew hx hset) hset
    | fail | skip => exact mem_markLast hnew hx hset
    | batch => exact mem_markLast (f := .batched) hnew hx hset
    | retry | async | fatal => exact hx
  | _ => exact hx

theorem step_cur (h : p.step e = some p') (hdeliver : ∀ q m, e ≠ .deliver q m)
    (hreset : ∀ q c, e ≠ .reset q c) : p'.cur = p.cur := by
  by_cases hctl : OutputPlugin.control e = true
  · have hcore := OutputPlugin.step_control h hctl
    simp only [OutputPlugin.core, Prod.mk.injEq] at hcore
    exact hcore.2.2.2.1
  cases e with
  | deliver q m => exact absurd rfl (hdeliver q m)
  | reset q c => exact absurd rfl (hreset q c)
  | openFirst q => rw [OutputPlugin.step_openFirst h]
  | matcher | callback | pmReturn => exact (OutputStreams.own_step rfl h).cur
  | _ => exact absurd rfl hctl

end

/-! ## The invariant -/

/-- The messages that were delivered to the instance, or settled. -/
def reached (l : Ledger) (q : Queue) : Set Checkpoint :=
  {m | m ∈ l.settled q ∨ (q, m) ∈ l.sync.entries.map place}

structure Inv (ends : Messages) (s : Process) (l : Ledger) : Prop where
  sync : ∀ i ∈ s.loaded, OutputSync.Inv i.plugin l.sync ∧ OutputSync.Safe (i.plugin, l.sync)
  unloaded : s.loaded = none → l.sync = ⟨[], false⟩
  read : ∀ i ∈ s.loaded, ∀ q, i.plugin.readQueue.reads q = true →
    Covers {m | m ∈ ends q} (l.origin q) (i.plugin.cur.get q) (reached l q)
  store : ∀ q c, s.store.own q = some c → Covers {m | m ∈ ends q} (l.stored q) c (l.settled q)
  saved : ∀ q c, s.persisted.own q = some c → Covers {m | m ∈ ends q} (l.saved q) c (l.settled q)
  once : (l.sync.entries.map place).Nodup
  past : ∀ xs ∈ l.past, (xs.map place).Nodup

section

variable {ends : Messages} {s s' : Process} {l : Ledger} {i : Loaded} {p : OutputPlugin} {e : OpEvent}

theorem settled_of_sub {l' : Ledger} {q : Queue} (h : ∀ x ∈ l.all, x.fate = .settled → x ∈ l'.all) :
    l.settled q ⊆ l'.settled q := by
  rintro m ⟨x, hx, hq, hm, hset⟩
  exact ⟨x, h x hx hset, hq, hm, hset⟩

/-- Everything up to `p->cp` is settled. -/
theorem Inv.covers_cp (hI : Inv ends s l) (hi : i ∈ s.loaded) {q : Queue}
    (hq : i.plugin.readQueue.reads q = true) :
    Covers {m | m ∈ ends q} (l.origin q) (i.plugin.cp.get q) (l.settled q) := by
  obtain ⟨hsync, hsafe⟩ := hI.sync i hi
  refine ((hI.read i hi q hq).rewind (hsync.cp_le q)).mono fun m _ hle hm => ?_
  rcases hm with hm | hm
  · exact hm
  · obtain ⟨x, hx, hplace⟩ := List.mem_map.mp hm
    obtain ⟨rfl, rfl⟩ := Prod.mk.inj hplace
    exact ⟨x, List.mem_append_left _ hx, rfl, rfl, hsafe x hx hle⟩

theorem Inv.safe (hI : Inv ends s l) : Safe ends (s, l) :=
  ⟨hI.saved, List.forall_mem_cons.mpr ⟨hI.once, hI.past⟩⟩

/-! ## The plugin -/

/-- What an event of the plugin does to the ledger. -/
structure Sees (l l' : Ledger) : Prop where
  settled : ∀ q, l.settled q ⊆ l'.settled q
  reached : ∀ q, reached l q ⊆ reached l' q
  past : l'.past = l.past
  stored : l'.stored = l.stored
  saved : l'.saved = l.saved

theorem sees_plugin (hI : Inv ends s l) (hs : s.loaded = some i) (h : i.plugin.step e = some p) :
    Sees l (see s l (.plugin e)) := by
  obtain ⟨hsync, -⟩ := hI.sync i hs
  have hsettled : ∀ q, l.settled q ⊆ (see s l (.plugin e)).settled q := by
    refine fun q => settled_of_sub fun x hx hset => ?_
    simp only [see, hs]
    rcases List.mem_append.mp hx with hx | hx
    · exact List.mem_append_left _ (mem_see hsync h hx hset)
    · exact List.mem_append_right _ hx
  refine ⟨hsettled, fun q m hm => hm.imp (fun h => hsettled q h) fun hm => ?_, ?_, ?_, ?_⟩
  · simp only [see, hs]
    by_cases he : ∃ q m, e = .deliver q m
    · obtain ⟨r, c, rfl⟩ := he
      exact List.mem_cons_of_mem _ hm
    · rwa [places_see fun q m heq => he ⟨q, m, heq⟩]
  all_goals simp only [see, hs]

/-- The way to where the plugin has read. -/
theorem read_plugin (hI : Inv ends s l) (hs : s.loaded = some i) (h : i.plugin.step e = some p)
    (hnext : ∀ q m, e = .deliver q m → IsNext (ends q) (i.plugin.cur.get q) m) (q : Queue)
    (hq : i.plugin.readQueue.reads q = true) :
    Covers {m | m ∈ ends q} ((see s l (.plugin e)).origin q) (p.cur.get q)
      (reached (see s l (.plugin e)) q) := by
  have hread := (hI.read i hs q hq).mono fun m _ _ hm => (sees_plugin hI hs h).reached q hm
  by_cases hdeliver : ∃ r m, e = .deliver r m
  · obtain ⟨r, m, rfl⟩ := hdeliver
    obtain ⟨-, -, -, rfl⟩ := OutputPlugin.step_deliver h
    have horigin : (see s l (.plugin (.deliver r m))).origin = l.origin := by simp only [see, hs]
    rw [horigin]
    by_cases hqr : q = r
    · subst hqr
      have hm : m ∈ reached (see s l (.plugin (.deliver q m))) q := by
        refine .inr ?_
        simp only [see, hs]
        exact List.mem_cons_self
      simpa only [CheckpointPair.get_set_same] using hread.advance (hnext q m rfl) hm
    · simpa only [CheckpointPair.get_set_other _ _ hqr] using hread
  by_cases hreset : ∃ r c, e = .reset r c
  · obtain ⟨r, c, rfl⟩ := hreset
    obtain ⟨-, rfl⟩ := OutputPlugin.step_reset h
    have horigin : (see s l (.plugin (.reset r c))).origin = Function.update l.origin r c := by
      simp only [see, hs]
    rw [horigin]
    by_cases hqr : q = r
    · subst hqr
      simpa only [CheckpointPair.get_set_same, Function.update_self] using Covers.start _ _ _
    · simpa only [CheckpointPair.get_set_other _ _ hqr, Function.update_of_ne hqr] using hread
  have horigin : (see s l (.plugin e)).origin = l.origin := by
    simp only [see, hs]
    cases e with
    | reset r c => exact absurd ⟨r, c, rfl⟩ hreset
    | _ => rfl
  rw [horigin, step_cur h (fun r m he => hdeliver ⟨r, m, he⟩) fun r c he => hreset ⟨r, c, he⟩]
  exact hread

/-- The messages of the instance lie ahead of what it has read. -/
theorem once_plugin (hI : Inv ends s l) (hs : s.loaded = some i) (h : i.plugin.step e = some p) :
    ((see s l (.plugin e)).sync.entries.map place).Nodup := by
  simp only [see, hs]
  by_cases hdeliver : ∃ q m, e = .deliver q m
  · obtain ⟨q, m, rfl⟩ := hdeliver
    obtain ⟨-, -, hlt, -⟩ := OutputPlugin.step_deliver h
    refine List.nodup_cons.mpr ⟨fun hm => ?_, hI.once⟩
    obtain ⟨x, hx, hplace⟩ := List.mem_map.mp hm
    obtain ⟨hxq, hxm⟩ := Prod.mk.inj hplace
    have hle := ((hI.sync i hs).1.read x hx).2
    rw [hxq, hxm] at hle
    exact absurd hle (not_le.mpr hlt)
  · rw [places_see fun q m heq => hdeliver ⟨q, m, heq⟩]
    exact hI.once

theorem plugin_inv (hI : Inv ends s l) (hs : s.loaded = some i) (h : i.plugin.step e = some p)
    (hnext : ∀ q m, e = .deliver q m → IsNext (ends q) (i.plugin.cur.get q) m)
    (hadm : OutputSync.Admits (i.plugin, l.sync) e) :
    Inv ends { s with loaded := some { i with plugin := p } } (see s l (.plugin e)) := by
  obtain ⟨hsync, hsafe⟩ := hI.sync i hs
  have hsees := sees_plugin hI hs h
  have hstep : OutputSync.step (i.plugin, l.sync) e =
      some (p, OutputSync.Ledger.see i.plugin l.sync e) := Runs.observe_some.mpr ⟨h, rfl⟩
  constructor
  case sync =>
    rintro j hj
    cases hj
    simp only [see, hs]
    exact ⟨OutputSync.step_inv (s := (i.plugin, l.sync)) hsync hstep,
      (OutputSync.step_safe hsync hsafe hstep).mpr hadm⟩
  case unloaded => intro h; cases h
  case read =>
    rintro j hj q hq
    cases hj
    rw [OutputReload.step_readQueue h] at hq
    exact read_plugin hI hs h hnext q hq
  case store =>
    intro q c hc
    rw [hsees.stored]
    exact (hI.store q c hc).mono fun m _ _ hm => hsees.settled q hm
  case saved =>
    intro q c hc
    rw [hsees.saved]
    exact (hI.saved q c hc).mono fun m _ _ hm => hsees.settled q hm
  case once => exact once_plugin hI hs h
  case past =>
    rw [hsees.past]
    exact hI.past

/-! ## The rest of the process -/

/-- The positions of the instance are stored. -/
theorem stores_inv {pass : Pass} {ending : Ending} (hI : Inv ends s l) (hs : s.loaded = some i) :
    Inv ends ⟨some { i with ending := ending }, storePositions i s.store, s.persisted, pass⟩
      (l.stores i.plugin.readQueue) where
  sync := by
    rintro j hj
    cases hj
    exact hI.sync i hs
  unloaded h := by cases h
  read := by
    rintro j hj q hq
    cases hj
    exact hI.read i hs q hq
  store q c hc := by
    simp only [storePositions, Ledger.stores] at hc ⊢
    by_cases hq : i.plugin.readQueue.reads q = true
    · rw [if_pos hq] at hc ⊢
      cases hc
      exact hI.covers_cp hs hq
    · rw [if_neg hq] at hc ⊢
      exact hI.store q c hc
  saved := hI.saved
  once := hI.once
  past := hI.past

/-- Entries are only taken out of the store. -/
theorem removes_inv {pos : Positions} {pass : Pass} {ending : Ending} (hI : Inv ends s l)
    (hs : s.loaded = some i)
    (hpos : ∀ q c, pos.own q = some c → s.store.own q = some c) :
    Inv ends ⟨some { i with ending := ending }, pos, s.persisted, pass⟩ l where
  sync := by
    rintro j hj
    cases hj
    exact hI.sync i hs
  unloaded h := by cases h
  read := by
    rintro j hj
    cases hj
    exact hI.read i hs
  store q c hc := hI.store q c (hpos q c hc)
  saved := hI.saved
  once := hI.once
  past := hI.past

theorem unloaded_inv {pos : Positions} {pass : Pass} (hI : Inv ends s l) (hs : s.loaded = none)
    (hpos : ∀ q c, pos.own q = some c → s.store.own q = some c) :
    Inv ends ⟨none, pos, s.persisted, pass⟩ l where
  sync i hi := by cases hi
  unloaded _ := hI.unloaded hs
  read i hi := by cases hi
  store q c hc := hI.store q c (hpos q c hc)
  saved := hI.saved
  once := hI.once
  past := hI.past

/-- The instance is gone, and with `pos` in the store goes what the store had come by. -/
theorem close_inv {pos : Positions} {stored : Queue → Checkpoint} {pass : Pass} (hI : Inv ends s l)
    (hpos : ∀ q c, pos.own q = some c → Covers {m | m ∈ ends q} (stored q) c (l.settled q)) :
    Inv ends ⟨none, pos, s.persisted, pass⟩ { l.close with stored := stored } where
  sync i hi := by cases hi
  unloaded _ := rfl
  read i hi := by cases hi
  store := hpos
  saved := hI.saved
  once := List.nodup_nil
  past := List.forall_mem_cons.mpr ⟨hI.once, hI.past⟩

theorem get_startPositions {o : Options} {first : Option (Queue → Nat)} {pos : Positions} {q : Queue}
    (hq : o.readQueue.reads q = true) :
    (startPositions o first pos).get q = hsLookupInputCheckpoint pos first q := by
  cases q <;> simp only [startPositions, CheckpointPair.get, hq, if_true]

/-- A new instance starts where its entries say. -/
theorem opens_inv {o : Options} {first : Option (Queue → Nat)} {pass : Pass} (hI : Inv ends s l)
    (hs : s.loaded = none) :
    Inv ends ⟨some (addToOutputPlugins o first s.store).2, (addToOutputPlugins o first s.store).1,
      s.persisted, pass⟩ (l.opens first s.store) where
  sync := by
    rintro i hi
    cases hi
    simp only [Ledger.opens, hI.unloaded hs]
    exact ⟨OutputSync.init_inv _ _ _ _, OutputSync.init_safe _ _ _ _⟩
  unloaded h := by cases h
  read := by
    rintro i hi q hq
    cases hi
    have hq : o.readQueue.reads q = true := hq
    have hcur : (addToOutputPlugins o first s.store).2.plugin.cur.get q =
        hsLookupInputCheckpoint s.store first q := get_startPositions hq
    rw [hcur]
    simp only [Ledger.opens]
    cases hown : s.store.own q with
    | none =>
      rw [Option.isSome_none, if_neg Bool.false_ne_true]
      exact Covers.start _ _ _
    | some c =>
      simp only [Option.isSome_some, if_true, hsLookupInputCheckpoint, hown]
      exact (hI.store q c hown).mono fun m _ _ hm => .inl hm
  store q c hc := by
    simp only [addToOutputPlugins] at hc
    split at hc
    · exact hI.store q c hc
    · cases hc
  saved := hI.saved
  once := hI.once
  past := hI.past

theorem write_inv (writer : Queue → Checkpoint) (hI : Inv ends s l) :
    Inv ends (s.write writer) (see s l (.write writer)) := by
  unfold Process.write
  cases hpass : s.pass with
  | idle | analysisStats =>
    simp only [see, hpass]
    cases hs : s.loaded with
    | none => exact unloaded_inv hI hs fun _ _ h => h
    | some i => exact removes_inv hI hs fun _ _ h => h
  | outputStats =>
    cases hs : s.loaded with
    | none =>
      simp only [see, hpass, hs]
      exact unloaded_inv hI hs fun _ _ h => h
    | some i =>
      simp only [see, hpass, hs]
      exact stores_inv hI hs
  | persist =>
    simp only [see, hpass]
    exact ⟨hI.sync, hI.unloaded, hI.read, hI.store, hI.store, hI.once, hI.past⟩

theorem endThread_inv (hI : Inv ends s l) (h : s.endThread = some s') :
    Inv ends s' (see s l .endThread) := by
  unfold Process.endThread at h
  cases hs : s.loaded with
  | none =>
    rw [hs] at h
    cases h
  | some i =>
    simp only [hs] at h
    simp only [see, hs]
    cases hend : i.ending with
    | running =>
      simp only [hend] at h ⊢
      split at h
      · cases h
        exact stores_inv hI hs
      · cases h
    | stored =>
      simp only [hend] at h ⊢
      split at h
      · rename_i hremove
        cases h
        rw [if_pos hremove]
        refine removes_inv hI hs fun q c hc => ?_
        simp only [removeCheckpointQ] at hc
        split at hc
        · cases hc
        · exact hc
      · rename_i hremove
        cases h
        rw [if_neg hremove]
        exact close_inv hI hI.store
    | removed =>
      simp only [hend] at h ⊢
      cases h
      exact close_inv hI hI.store

theorem boot_inv (found : Found) (first : Queue → Nat) (hI : Inv ends s l) :
    Inv ends (boot found first s.persisted) (l.boot found first s.persisted) := by
  have hclosed : ∀ pos : Positions, (∀ q c, pos.own q = some c → s.persisted.own q = some c) →
      Inv ends ⟨none, pos, s.persisted, .idle⟩ { l.close with stored := l.saved } :=
    fun pos hpos => close_inv hI fun q c hc => hI.saved q c (hpos q c hc)
  cases found with
  | nothing => exact hclosed _ fun q c hc => by cases hc
  | broken => exact hclosed _ fun q c hc => hc
  | config o => exact opens_inv (hclosed s.persisted fun q c hc => hc) rfl

theorem step_inv {t t' : State} {e : Event} (hI : Inv ends t.1 t.2) (hadm : Admits ends t e)
    (h : step t e = some t') : Inv ends t'.1 t'.2 := by
  obtain ⟨s, l⟩ := t
  obtain ⟨hs', hl'⟩ := Runs.observe_some.mp h
  rw [hl']
  cases e with
  | plugin e =>
    simp only [lifeStep] at hs'
    cases hs : s.loaded with
    | none =>
      simp only [hs] at hs'
      cases hs'
    | some i =>
      simp only [hs] at hs'
      obtain ⟨p, hp, hs'⟩ := Option.map_eq_some_iff.mp hs'
      obtain ⟨hnext, hadm⟩ := hadm i hs
      rw [← hs']
      exact plugin_inv hI hs hp hnext hadm
  | write writer =>
    rw [← Option.some.inj hs']
    exact write_inv writer hI
  | endThread => exact endThread_inv hI hs'
  | load o =>
    obtain ⟨⟨-, hnone⟩, hs'⟩ := Option.ite_none_right_eq_some.mp hs'
    rw [← Option.some.inj hs']
    exact opens_inv hI (Option.isNone_iff_eq_none.mp hnone)
  | removeCheckpoints =>
    obtain ⟨⟨-, hnone⟩, hs'⟩ := Option.ite_none_right_eq_some.mp hs'
    have hs := Option.isNone_iff_eq_none.mp hnone
    rw [← Option.some.inj hs', hs]
    refine unloaded_inv hI hs fun q c hc => ?_
    cases hc
  | boot found first =>
    rw [← Option.some.inj hs']
    exact boot_inv found first hI

theorem start_inv (persisted : Positions) (found : Found) (first : Queue → Nat) :
    Inv ends (start persisted found first).1 (start persisted found first).2 := by
  refine boot_inv (s := ⟨none, ⟨fun _ => none, fun _ => none⟩, persisted, .idle⟩) found first ?_
  have hsaved : ∀ q c, persisted.own q = some c →
      Covers {m | m ∈ ends q} ((persisted.own q).getD ⟨0, 0⟩) c (Ledger.empty.settled q) := by
    intro q c hc
    rw [hc]
    exact Covers.start _ _ _
  refine ⟨fun i hi => ?_, fun _ => rfl, fun i hi => ?_, fun q c hc => ?_, hsaved, List.nodup_nil,
    fun _ hx => ?_⟩
  · cases hi
  · cases hi
  · cases hc
  · cases hx

end

/-- In every run through any number of lives and instances whose steps are admitted, every message on the way to a
persisted position is settled, and each instance is given a message once at most. -/
theorem deliveries_safe (ends : Messages) (persisted : Positions) (found : Found) (first : Queue → Nat)
    (es : List Event) (h : Runs.Meets step (Admits ends) (start persisted found first) es) :
    Runs.Always step (Safe ends) (start persisted found first) es :=
  (Runs.always_of_meets (I := fun t => Inv ends t.1 t.2) (fun _ _ _ hI hadm h => step_inv hI hadm h)
    (start_inv persisted found first) h).mono fun _ hI => hI.safe

instance (s : OutputSync.State) (e : OpEvent) : Decidable (OutputSync.Admits s e) :=
  match e with
  | .callback _ => inferInstanceAs (Decidable (s.1.batching = true → ∀ x ∈ s.2.entries, x.fate ≠ .offered))
  | .stop | .head | .openFirst _ | .reset _ _ | .deliver _ _ | .idle | .nothing | .matcher _ | .pmReturn _
  | .ticker _ | .timerReturn _ | .reoffer | .shutdownReturn => isTrue trivial

/-- The only message an event may hand out. -/
instance (ends : Messages) (i : Loaded) (e : OpEvent) :
    Decidable (∀ q m, e = .deliver q m → IsNext (ends q) (i.plugin.cur.get q) m) :=
  match e with
  | .deliver q m => decidable_of_iff (IsNext (ends q) (i.plugin.cur.get q) m)
      ⟨fun h _ _ he => by cases he; exact h, fun h => h q m rfl⟩
  | .stop | .head | .openFirst _ | .reset _ _ | .callback _ | .idle | .nothing | .matcher _ | .pmReturn _
  | .ticker _ | .timerReturn _ | .reoffer | .shutdownReturn => isTrue fun _ _ he => by cases he

instance (ends : Messages) (s : State) (e : Event) : Decidable (Admits ends s e) :=
  match e with
  | .plugin e => inferInstanceAs (Decidable (∀ i ∈ s.1.loaded,
      (∀ q m, e = .deliver q m → IsNext (ends q) (i.plugin.cur.get q) m) ∧
        OutputSync.Admits (i.plugin, s.2.sync) e))
  | .write _ | .endThread | .load _ | .removeCheckpoints | .boot _ _ => isTrue trivial

def opening : List Event :=
  [.plugin .head, .plugin (.openFirst .input), .plugin .nothing, .plugin .head]

def batched : List Event :=
  [.plugin (.deliver .input ⟨0, 200⟩), .plugin (.matcher true), .plugin (.pmReturn .batch)]

def wholePass : List Event := List.replicate 4 (.write fun _ => ⟨0, 200⟩)

/-- A message is sent and its position persisted, the next one is in a batch when the process is killed, and the
next process is given it again and commits it from a timer event. -/
def killedInBatch : List Event :=
  opening ++
  ([.plugin (.deliver .input ⟨0, 100⟩), .plugin (.matcher true), .plugin (.pmReturn .sent),
    .plugin (.ticker 0), .plugin (.timerReturn false)] : List Event) ++
  wholePass ++ (.plugin .head :: batched) ++
  (.boot (.config ⟨.input, 60, 0, false⟩) (fun _ => 0) :: opening) ++
  (batched ++ ([.plugin (.ticker 0), .plugin (.callback 0), .plugin (.timerReturn false)] : List Event)) ++
  wholePass

theorem deliveries_safe_killed :
    Runs.Always step (Safe fun _ => [⟨0, 100⟩, ⟨0, 200⟩])
      (start ⟨fun _ => none, fun _ => none⟩ (.config ⟨.input, 60, 0, false⟩) fun _ => 0) killedInBatch :=
  deliveries_safe _ _ _ _ _ (by decide)

end OutputLives

end Hindsight
