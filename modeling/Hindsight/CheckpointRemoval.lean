import Hindsight.Lib.Run
import Hindsight.OutputReload

/-!
# Hindsight.CheckpointRemoval

Output plugins that terminate while the main thread stores checkpoints. A plugin thread that left its
loop on a fatal error stores its final positions, removes them again if `rm_cp_terminate` is set,
and then takes `list_lock` to leave the list; each access of the store is a critical section of its
own. The pass of `output_stats` holds `list_lock` and stores the positions of every listed plugin.
The keys and the removal, which cuts them to its buffer, are those of `Hindsight.OutputReload`.

* `Safe`: no position is stored for a plugin with `rm_cp_terminate` that left the list, until a
  plugin of that name is loaded.
* `Admits`: a plugin leaves the list when its keys fit into the buffer and no pass has stored a
  position it has removed.
* `removed_iff`: a run keeps `Safe` exactly when all its steps are admitted.
-/

namespace Hindsight

namespace CheckpointRemoval

open PositionStore (Globals hsUpdateInputCheckpoint positionText)
open CheckpointFile (subdir Basename)
open OutputReload (pluginName ownKey ownKey_ne head_ownKey head_subdir_ne snprintf snprintf_eq_self
  hsRemoveCheckpoint removeCheckpointQ)
open Config (hsMaxPath)

variable {δ : Type}

/-- The queues a plugin reads, in the order the thread and the pass go through them. -/
def queues : ReadQueue → List Queue
  | .both => [.input, .analysis]
  | .input => [.input]
  | .analysis => [.analysis]

theorem mem_queues {rq : ReadQueue} {q : Queue} : q ∈ queues rq ↔ rq.reads q = true := by
  cases rq <;> cases q <;> decide

/-- Where a plugin thread is: in its loop, storing its final positions, removing them, or waiting to
leave the list. -/
inductive Pc where
  | running
  | storing (todo : List Queue)
  | removing (todo : List Queue)
  | leaving
  deriving DecidableEq, Repr

structure Plugin where
  name : Basename
  readQueue : ReadQueue
  rmCpTerminate : Bool
  cp : CheckpointPair
  pc : Pc
  deriving DecidableEq

/-- `list` and `list_cap` of `hs_output_plugins`, the store, and where the pass that holds `list_lock`
is: the slot and the queues left to store there. -/
structure Plugins (δ : Type) where
  list : Nat → Option Plugin
  listCap : Nat
  store : Globals δ
  pass : Option (Nat × List Queue)

inductive Event where
  | thread (i : Nat)
  | writer
  | advance (i : Nat) (cp : CheckpointPair)
  | load (i : Nat) (name : Basename) (rq : ReadQueue) (rm : Bool) (cp : CheckpointPair)
  deriving DecidableEq

/-- The keys `add_to_output_plugins` hands to `hs_remove_checkpoint`, of the queues that are not read. -/
def unreadKeys (name : Basename) (rq : ReadQueue) : List (List UInt8) :=
  ([Queue.input, .analysis].filter fun q => !rq.reads q).map fun q => snprintf (ownKey name q)

namespace Plugins

def setPc (s : Plugins δ) (i : Nat) (p : Plugin) (pc : Pc) : Plugins δ :=
  { s with list := Function.update s.list i (some { p with pc := pc }) }

/-- The position of a plugin in a queue goes into the store. -/
def storeEntry (s : Plugins δ) (p : Plugin) (q : Queue) : Plugins δ :=
  { s with store := hsUpdateInputCheckpoint s.store (subdir q) (some (pluginName p.name)) (p.cp.get q) }

/-- One queue in `remove_checkpoint_q`. -/
def removeEntry (s : Plugins δ) (p : Plugin) (q : Queue) : Plugins δ :=
  { s with store := hsRemoveCheckpoint s.store (snprintf (ownKey p.name q)) }

/-- The queues the pass stores at a slot. -/
def queuesAt (s : Plugins δ) (i : Nat) : List Queue :=
  match s.list i with
  | some p => queues p.readQueue
  | none => []

/-- One step of the thread of the plugin in slot `i`. -/
def threadStep (s : Plugins δ) (i : Nat) (p : Plugin) : Option (Plugins δ) :=
  match p.pc with
  | .running => some (s.setPc i p (.storing (queues p.readQueue)))
  | .storing (q :: todo) => some ((s.storeEntry p q).setPc i p (.storing todo))
  | .storing [] =>
    some (s.setPc i p (if p.rmCpTerminate then .removing (queues p.readQueue) else .leaving))
  | .removing (q :: todo) => some ((s.removeEntry p q).setPc i p (.removing todo))
  | .removing [] => some (s.setPc i p .leaving)
  | .leaving =>
    if s.pass = none then some { s with list := Function.update s.list i none } else none

/-- One step of the pass of `output_stats`. -/
def writerStep (s : Plugins δ) : Plugins δ :=
  match s.pass with
  | none => { s with pass := some (0, s.queuesAt 0) }
  | some (i, q :: todo) =>
    match s.list i with
    | some p => { s.storeEntry p q with pass := some (i, todo) }
    | none => { s with pass := some (i, todo) }
  | some (i, []) =>
    { s with pass := if i + 1 < s.listCap then some (i + 1, s.queuesAt (i + 1)) else none }

/-- `add_to_output_plugins` takes the first free slot or a new one; the positions in the queues the
plugin does not read are removed. -/
def load (s : Plugins δ) (i : Nat) (p : Plugin) : Plugins δ where
  list := Function.update s.list i (some p)
  listCap := max s.listCap (i + 1)
  store := (unreadKeys p.name p.readQueue).foldl hsRemoveCheckpoint s.store
  pass := s.pass

def step (s : Plugins δ) : Event → Option (Plugins δ)
  | .thread i =>
    match s.list i with
    | some p => s.threadStep i p
    | none => none
  | .writer => some s.writerStep
  | .advance i cp =>
    match s.list i with
    | some p =>
      if p.pc = .running ∧ s.pass.map Prod.fst ≠ some i then
        some { s with list := Function.update s.list i (some { p with cp := cp }) }
      else none
    | none => none
  | .load i name rq rm cp =>
    if s.pass = none ∧ i ≤ s.listCap ∧ s.list i = none ∧ (∀ j < i, s.list j ≠ none) ∧
        ∀ j < s.listCap, ∀ p ∈ s.list j, p.name ≠ name then
      some (s.load i ⟨name, rq, rm, cp, .running⟩)
    else none

end Plugins

/-- The observer: for each name the queues that a plugin of that name with `rm_cp_terminate` read
when it left the list, as long as none is loaded again; and for each key whether a pass stored a
position under it after it was last removed. -/
structure History where
  gone : Basename → Option ReadQueue
  stored : List UInt8 → Bool

def History.setStored (h : History) (key : List UInt8) (v : Bool) : History :=
  { h with stored := Function.update h.stored key v }

def see (s : Plugins δ) (h : History) : Event → History
  | .thread i =>
    match s.list i with
    | some p =>
      match p.pc with
      | .removing (q :: _) => h.setStored (snprintf (ownKey p.name q)) false
      | .leaving =>
        if p.rmCpTerminate then
          { h with gone := Function.update h.gone p.name (some p.readQueue) }
        else h
      | _ => h
    | none => h
  | .writer =>
    match s.pass with
    | some (i, q :: _) =>
      match s.list i with
      | some p => h.setStored (ownKey p.name q) true
      | none => h
    | _ => h
  | .advance _ _ => h
  | .load _ name rq _ _ =>
    { gone := Function.update h.gone name none
      stored := (unreadKeys name rq).foldl (fun f key => Function.update f key false) h.stored }

abbrev State (δ : Type) := Plugins δ × History

def step : State δ → Event → Option (State δ) := Runs.observe Plugins.step see

/-- A plugin that left the list for good has no position in the store. -/
def Safe (s : State δ) : Prop :=
  ∀ name, ∀ rq ∈ s.2.gone name, ∀ q, rq.reads q = true → s.1.store (ownKey name q) = .nil

/-- When a plugin with `rm_cp_terminate` leaves the list, its keys fit into the buffer of
`remove_checkpoint_q`, and no pass has stored one of its positions after it was removed. -/
def Admits (s : State δ) : Event → Prop
  | .thread i => ∀ p ∈ s.1.list i, p.pc = .leaving → p.rmCpTerminate = true →
      ∀ q, p.readQueue.reads q = true →
        (ownKey p.name q).length < hsMaxPath ∧ s.2.stored (ownKey p.name q) = false
  | _ => True

/-! ## Keys -/

/-- The key tells the plugin and the queue. -/
theorem ownKey_inj {b c : Basename} {q r : Queue} (h : ownKey b q = ownKey c r) : b = c ∧ q = r := by
  have hq : q = r := by
    by_contra hne
    have hhead := congrArg List.head? h
    rw [head_ownKey, head_ownKey] at hhead
    exact head_subdir_ne hne hhead
  subst hq
  obtain ⟨b, _, _, _⟩ := b
  obtain ⟨c, _, _, _⟩ := c
  obtain rfl : b = c := List.append_cancel_left (List.append_cancel_left h)
  exact ⟨rfl, rfl⟩

theorem length_snprintf (text : List UInt8) : (snprintf text).length < hsMaxPath :=
  (List.length_take_le _ _).trans_lt (by decide)

/-- What the removal of several keys leaves under a key. -/
theorem foldl_update {β : Type} (v : β) (keys : List (List UInt8)) (f : List UInt8 → β)
    (k : List UInt8) :
    keys.foldl (fun f key => Function.update f key v) f k = if k ∈ keys then v else f k := by
  induction keys generalizing f with
  | nil => rfl
  | cons key keys ih =>
    rw [List.foldl_cons, ih]
    by_cases hk : k = key
    · subst hk
      simp
    · simp [hk]

/-- What `add_to_output_plugins` removes for one queue. -/
theorem syncQueue_store {dirs : List UInt8 → Option Dir} {path : Option (List UInt8)} {name : Basename}
    {q : Queue} {s t : Globals δ × OutputReload.Instance}
    (h : OutputReload.syncQueue dirs path name q s = some t) :
    t.2.plugin.readQueue = s.2.plugin.readQueue ∧
      t.1 = if s.2.plugin.readQueue.reads q then s.1
        else hsRemoveCheckpoint s.1 (snprintf (ownKey name q)) := by
  unfold OutputReload.syncQueue at h
  split at h
  · rename_i hq
    obtain ⟨cp, -, rfl⟩ := Option.map_eq_some_iff.mp h
    exact ⟨rfl, (if_pos hq).symm⟩
  · rename_i hq
    cases h
    refine ⟨rfl, ?_⟩
    rw [if_neg hq]
    cases q <;> rfl

/-- The load removes what `add_to_output_plugins` removes. -/
theorem addToOutputPlugins_store {dirs : List UInt8 → Option Dir} {path : Option (List UInt8)}
    {name : Basename} {G : Globals δ} {i : OutputReload.Instance}
    {r : Globals δ × OutputReload.Instance}
    (h : OutputReload.addToOutputPlugins dirs path name G i = some r) :
    r.1 = (unreadKeys name i.plugin.readQueue).foldl hsRemoveCheckpoint G := by
  obtain ⟨t, hinput, hanalysis⟩ := Option.bind_eq_some_iff.mp h
  obtain ⟨hrq, hstore⟩ := syncQueue_store hinput
  rw [(syncQueue_store hanalysis).2, hrq, hstore]
  cases i.plugin.readQueue <;> rfl

/-- All steps of the removal together are `remove_checkpoint_q`. -/
theorem foldl_removeEntry (s : Plugins δ) (p : Plugin) :
    ((queues p.readQueue).foldl (fun s q => s.removeEntry p q) s).store =
      removeCheckpointQ p.name p.readQueue s.store := by
  cases h : p.readQueue <;> rfl

/-! ## The invariant -/

/-- The position in `q` was stored by the thread. -/
def Stored (p : Plugin) (q : Queue) : Prop :=
  p.pc = .leaving ∨ (∃ todo, p.pc = .removing todo) ∨ ∃ todo, p.pc = .storing todo ∧ q ∉ todo

/-- The position in `q` was removed already. -/
def Removed (p : Plugin) (q : Queue) : Prop :=
  p.pc = .leaving ∨ ∃ todo, p.pc = .removing todo ∧ q ∉ todo

/-- Names are taken once, no listed plugin counts as gone, a removed position is in the store exactly
when a pass stored it again, and one whose key does not fit stays. -/
structure Inv (s : Plugins δ) (h : History) : Prop where
  cap : ∀ i, s.listCap ≤ i → s.list i = none
  names : ∀ i j p p', s.list i = some p → s.list j = some p' → p.name = p'.name → i = j
  listed : ∀ i p, s.list i = some p → h.gone p.name = none
  removed : ∀ i p, s.list i = some p → p.rmCpTerminate = true →
    ∀ q, p.readQueue.reads q = true → Removed p q → (ownKey p.name q).length < hsMaxPath →
      (s.store (ownKey p.name q) = .nil ↔ h.stored (ownKey p.name q) = false)
  stays : ∀ i p, s.list i = some p → ∀ q, p.readQueue.reads q = true → Stored p q →
    hsMaxPath ≤ (ownKey p.name q).length → s.store (ownKey p.name q) ≠ .nil

section

variable {s s' : Plugins δ} {h h' : History} {i : Nat} {p p' : Plugin}

/-- What is under a key is as it was, or it was removed. -/
def Kept (s s' : Plugins δ) (h h' : History) (key : List UInt8) : Prop :=
  (s'.store key = s.store key ∧ h'.stored key = h.stored key) ∨
    (key.length < hsMaxPath ∧ s'.store key = .nil ∧ h'.stored key = false)

theorem Kept.rfl {key : List UInt8} : Kept s s h h key := .inl ⟨Eq.refl _, Eq.refl _⟩

theorem Kept.iff {key : List UInt8} (hk : Kept s s' h h' key)
    (h0 : s.store key = .nil ↔ h.stored key = false) :
    s'.store key = .nil ↔ h'.stored key = false := by
  rcases hk with ⟨hs, hh⟩ | ⟨-, hs, hh⟩
  · rw [hs, hh]
    exact h0
  · exact iff_of_true hs hh

theorem Kept.nil {key : List UInt8} (hk : Kept s s' h h' key) (h0 : s.store key = .nil) :
    s'.store key = .nil := by
  rcases hk with ⟨hs, -⟩ | ⟨-, hs, -⟩
  · exact hs.trans h0
  · exact hs

theorem Kept.long {key : List UInt8} (hk : Kept s s' h h' key) (hlen : hsMaxPath ≤ key.length) :
    s'.store key = s.store key := by
  rcases hk with ⟨hs, -⟩ | ⟨hlt, -, -⟩
  · exact hs
  · omega

/-- A removal keeps or removes what is under any key. -/
theorem kept_remove {r : List UInt8} (hr : r.length < hsMaxPath)
    (hs : s'.store = hsRemoveCheckpoint s.store r) (key : List UInt8) :
    Kept s s' h (h.setStored r false) key := by
  by_cases hk : key = r
  · subst hk
    refine .inr ⟨hr, ?_, Function.update_self _ _ _⟩
    rw [hs]
    exact Function.update_self _ _ _
  · refine .inl ⟨?_, Function.update_of_ne hk _ _⟩
    rw [hs]
    exact Function.update_of_ne hk _ _

/-- A step that changes the plugin in slot `i`, its entries in the store and nothing else, but that may
remove what is under another key. -/
structure Only (s s' : Plugins δ) (h h' : History) (i : Nat) (p p' : Plugin) : Prop where
  list : s'.list = Function.update s.list i (some p')
  cap : s'.listCap = s.listCap
  name : p'.name = p.name
  readQueue : p'.readQueue = p.readQueue
  rm : p'.rmCpTerminate = p.rmCpTerminate
  gone : h'.gone = h.gone
  others : ∀ n, n ≠ p.name → ∀ q, Kept s s' h h' (ownKey n q)

/-- What the plugin's own entries have to meet after such a step. -/
structure Only.Own (s' : Plugins δ) (h' : History) (p p' : Plugin) : Prop where
  removed : p.rmCpTerminate = true → ∀ q, p.readQueue.reads q = true → Removed p' q →
    (ownKey p.name q).length < hsMaxPath →
      (s'.store (ownKey p.name q) = .nil ↔ h'.stored (ownKey p.name q) = false)
  stays : ∀ q, p.readQueue.reads q = true → Stored p' q → hsMaxPath ≤ (ownKey p.name q).length →
    s'.store (ownKey p.name q) ≠ .nil

theorem Only.lookup (ho : Only s s' h h' i p p') (hp : s.list i = some p) {j : Nat} {x' : Plugin}
    (hx : s'.list j = some x') :
    ∃ x, s.list j = some x ∧ x'.name = x.name ∧ x'.readQueue = x.readQueue ∧
      x'.rmCpTerminate = x.rmCpTerminate ∧ (j = i ∧ x' = p' ∨ j ≠ i ∧ x' = x) := by
  rw [ho.list] at hx
  by_cases hj : j = i
  · subst hj
    rw [Function.update_self] at hx
    cases hx
    exact ⟨p, hp, ho.name, ho.readQueue, ho.rm, .inl ⟨rfl, rfl⟩⟩
  · rw [Function.update_of_ne hj] at hx
    exact ⟨x', hx, rfl, rfl, rfl, .inr ⟨hj, rfl⟩⟩

theorem Only.inv (ho : Only s s' h h' i p p') (hI : Inv s h) (hp : s.list i = some p)
    (hown : Only.Own s' h' p p') : Inv s' h' := by
  refine ⟨fun j hj => ?_, fun j k x y hx hy hn => ?_, fun j x hx => ?_,
    fun j x hx hrm q hq hr hlen => ?_, fun j x hx q hq hr hlen => ?_⟩
  · rw [ho.cap] at hj
    have hne : j ≠ i := by
      rintro rfl
      rw [hI.cap j hj] at hp
      cases hp
    rw [ho.list, Function.update_of_ne hne]
    exact hI.cap j hj
  · obtain ⟨x₀, hx₀, hnx, -⟩ := ho.lookup hp hx
    obtain ⟨y₀, hy₀, hny, -⟩ := ho.lookup hp hy
    exact hI.names j k x₀ y₀ hx₀ hy₀ (by rw [← hnx, ← hny, hn])
  · obtain ⟨x₀, hx₀, hnx, -⟩ := ho.lookup hp hx
    rw [ho.gone, hnx]
    exact hI.listed j x₀ hx₀
  · obtain ⟨x₀, hx₀, hnx, hqx, hrx, ⟨rfl, rfl⟩ | ⟨hj, rfl⟩⟩ := ho.lookup hp hx
    · rw [hp] at hx₀
      cases hx₀
      rw [hnx] at hlen ⊢
      exact hown.removed (hrx ▸ hrm) q (hqx ▸ hq) hr hlen
    · have hne : x.name ≠ p.name := fun he => hj (hI.names j i x p hx₀ hp he)
      exact (ho.others _ hne q).iff (hI.removed j _ hx₀ hrm q hq hr hlen)
  · obtain ⟨x₀, hx₀, hnx, hqx, -, ⟨rfl, rfl⟩ | ⟨hj, rfl⟩⟩ := ho.lookup hp hx
    · rw [hp] at hx₀
      cases hx₀
      rw [hnx] at hlen ⊢
      exact hown.stays q (hqx ▸ hq) hr hlen
    · have hne : x.name ≠ p.name := fun he => hj (hI.names j i x p hx₀ hp he)
      rw [(ho.others _ hne q).long hlen]
      exact hI.stays j _ hx₀ q hq hr hlen

/-- Such a step says nothing about plugins that left the list. -/
theorem Only.safe (ho : Only s s' h h' i p p') (hI : Inv s h) (hp : s.list i = some p)
    (hS : Safe (s, h)) : Safe (s', h') := by
  intro name rq hgone q hq
  have hgone : rq ∈ h.gone name := ho.gone ▸ hgone
  have hne : name ≠ p.name := by
    rintro rfl
    rw [hI.listed i p hp] at hgone
    cases hgone
  exact (ho.others name hne q).nil (hS name rq hgone q hq)

theorem only_setPc (pc : Pc) : Only s (s.setPc i p pc) h h i p { p with pc := pc } :=
  ⟨rfl, rfl, rfl, rfl, rfl, rfl, fun _ _ _ => Kept.rfl⟩

/-- The position of a plugin is stored under its own key. -/
theorem storeEntry_other (s : Plugins δ) (p : Plugin) (q : Queue) {key : List UInt8}
    (hk : key ≠ ownKey p.name q) : (s.storeEntry p q).store key = s.store key :=
  Function.update_of_ne hk _ _

theorem storeEntry_same (s : Plugins δ) (p : Plugin) (q : Queue) :
    (s.storeEntry p q).store (ownKey p.name q) = .str (positionText (p.cp.get q)) :=
  Function.update_self _ _ _

/-- A key that fits is removed as it is. -/
theorem removeEntry_same (s : Plugins δ) (p : Plugin) {q : Queue}
    (hlen : (ownKey p.name q).length < hsMaxPath) :
    (s.removeEntry p q).store (ownKey p.name q) = .nil := by
  rw [Plugins.removeEntry, snprintf_eq_self.mpr hlen]
  exact Function.update_self _ _ _

theorem storeEntry_ne_nil {key : List UInt8} (q : Queue) (hk : s.store key ≠ .nil) :
    (s.storeEntry p q).store key ≠ .nil := by
  by_cases he : key = ownKey p.name q
  · rw [he, storeEntry_same]
    exact fun hn => by cases hn
  · rw [storeEntry_other s p q he]
    exact hk

/-- Storing a plugin's position leaves the keys of the others. -/
theorem kept_storeEntry {v : Bool} {q : Queue} (hs : s'.store = (s.storeEntry p q).store) {n : Basename}
    (hn : n ≠ p.name) (r : Queue) : Kept s s' h (h.setStored (ownKey p.name q) v) (ownKey n r) := by
  have hne : ownKey n r ≠ ownKey p.name q := fun he => hn (ownKey_inj he).1
  refine .inl ⟨?_, Function.update_of_ne hne _ _⟩
  rw [hs]
  exact storeEntry_other s p q hne

/-! ## The plugin thread -/

/-- The thread stores a position. -/
theorem store_only {r : Queue} {todo : List Queue} (hI : Inv s h) (hp : s.list i = some p)
    (hpc : p.pc = .storing (r :: todo)) :
    ∃ p', Only s ((s.storeEntry p r).setPc i p (.storing todo)) h h i p p' ∧
      Inv ((s.storeEntry p r).setPc i p (.storing todo)) h := by
  have honly : Only s ((s.storeEntry p r).setPc i p (.storing todo)) h h i p { p with pc := .storing todo } := by
    refine ⟨rfl, rfl, rfl, rfl, rfl, rfl, fun n hn q => .inl ⟨?_, rfl⟩⟩
    exact storeEntry_other s p r fun he => hn (ownKey_inj he).1
  refine ⟨_, honly, honly.inv hI hp ⟨fun _ q _ hr => ?_, fun q hq hr hlen => ?_⟩⟩
  · rcases hr with hr | ⟨todo, hr, -⟩ <;> cases hr
  · by_cases hqr : q = r
    · subst hqr
      exact fun hn => by cases (storeEntry_same s p q).symm.trans hn
    · have hout : q ∉ r :: todo := by
        rcases hr with hr | ⟨todo', hr⟩ | ⟨todo', hr, hout⟩
        · cases hr
        · cases hr
        · cases hr
          simp [hqr, hout]
      exact storeEntry_ne_nil r (hI.stays i p hp q hq (.inr (.inr ⟨_, hpc, hout⟩)) hlen)

/-- The thread removes an entry, its own or that of another plugin. -/
theorem remove_only {r : Queue} {todo : List Queue} (hI : Inv s h) (hp : s.list i = some p)
    (hpc : p.pc = .removing (r :: todo)) :
    ∃ p', Only s ((s.removeEntry p r).setPc i p (.removing todo)) h
        (h.setStored (snprintf (ownKey p.name r)) false) i p p' ∧
      Inv ((s.removeEntry p r).setPc i p (.removing todo))
        (h.setStored (snprintf (ownKey p.name r)) false) := by
  have hkept : ∀ key, Kept s ((s.removeEntry p r).setPc i p (.removing todo)) h
      (h.setStored (snprintf (ownKey p.name r)) false) key := kept_remove (length_snprintf _) rfl
  have honly : Only s ((s.removeEntry p r).setPc i p (.removing todo)) h
      (h.setStored (snprintf (ownKey p.name r)) false) i p { p with pc := .removing todo } :=
    ⟨rfl, rfl, rfl, rfl, rfl, rfl, fun _ _ _ => hkept _⟩
  refine ⟨_, honly, honly.inv hI hp ⟨fun hrm q hq hr hlen => ?_, fun q hq _ hlen => ?_⟩⟩
  · by_cases hqr : q = r
    · -- the key fits, so it is the one that is removed
      subst hqr
      refine iff_of_true (removeEntry_same s p hlen) ?_
      rw [snprintf_eq_self.mpr hlen]
      exact Function.update_self _ _ _
    · have hout : q ∉ r :: todo := by
        rcases hr with hr | ⟨todo', hr, hout⟩
        · cases hr
        · cases hr
          simp [hqr, hout]
      exact (hkept _).iff (hI.removed i p hp hrm q hq (.inr ⟨_, hpc, hout⟩) hlen)
  · rw [(hkept _).long hlen]
    exact hI.stays i p hp q hq (.inr (.inl ⟨_, hpc⟩)) hlen

/-- A plugin that is not waiting to leave the list takes a step. -/
theorem thread_only (hI : Inv s h) (hp : s.list i = some p) (hpc : p.pc ≠ .leaving)
    (hs : s.threadStep i p = some s') :
    ∃ p', Only s s' h (see s h (.thread i)) i p p' ∧ Inv s' (see s h (.thread i)) := by
  obtain ⟨name, rq, rm, cp, pc⟩ := p
  cases pc with
  | running =>
    cases hs
    simp only [see, hp]
    refine ⟨_, only_setPc _, (only_setPc _).inv hI hp ⟨fun _ q _ hr => ?_, fun q hq hr => ?_⟩⟩
    · rcases hr with hr | ⟨todo, hr, -⟩ <;> cases hr
    · -- no queue is stored yet
      rcases hr with hr | ⟨todo, hr⟩ | ⟨todo, hr, hout⟩
      · cases hr
      · cases hr
      · cases hr
        exact absurd (mem_queues.mpr hq) hout
  | storing todo =>
    simp only [see, hp]
    cases todo with
    | nil =>
      cases hs
      refine ⟨_, only_setPc _, (only_setPc _).inv hI hp ⟨fun hrm q hq hr => ?_, fun q hq _ => ?_⟩⟩
      · simp only at hrm
        subst hrm
        rcases hr with hr | ⟨todo, hr, hout⟩
        · cases hr
        · cases hr
          exact absurd (mem_queues.mpr hq) hout
      · exact hI.stays i _ hp q hq (.inr (.inr ⟨[], rfl, List.not_mem_nil⟩))
    | cons r todo =>
      cases hs
      exact store_only hI hp rfl
  | removing todo =>
    simp only [see, hp]
    cases todo with
    | nil =>
      cases hs
      refine ⟨_, only_setPc _, (only_setPc _).inv hI hp ⟨fun hrm q hq _ => ?_, fun q hq _ => ?_⟩⟩
      · exact hI.removed i _ hp hrm q hq (.inr ⟨[], rfl, List.not_mem_nil⟩)
      · exact hI.stays i _ hp q hq (.inr (.inl ⟨_, rfl⟩))
    | cons r todo =>
      cases hs
      exact remove_only hI hp rfl
  | leaving => exact absurd rfl hpc

/-- A plugin leaves the list. -/
theorem leave_inv (hI : Inv s h) (hp : s.list i = some p) (hpc : p.pc = .leaving)
    (hs : s.threadStep i p = some s') : Inv s' (see s h (.thread i)) := by
  simp only [Plugins.threadStep, hpc] at hs
  split at hs
  · cases hs
    have hlist : ∀ j x, Function.update s.list i none j = some x → s.list j = some x ∧ j ≠ i := by
      intro j x hx
      by_cases hj : j = i
      · subst hj
        rw [Function.update_self] at hx
        cases hx
      · rw [Function.update_of_ne hj] at hx
        exact ⟨hx, hj⟩
    have hstored : (see s h (.thread i)).stored = h.stored := by
      simp only [see, hp, hpc]
      split <;> rfl
    refine ⟨fun j hj => ?_, fun j k x y hx hy hn => ?_, fun j x hx => ?_,
      fun j x hx hrm q hq hr hlen => ?_, fun j x hx => hI.stays j x (hlist j x hx).1⟩
    · by_cases hji : j = i
      · subst hji
        exact Function.update_self _ _ _
      · exact (Function.update_of_ne hji _ _).trans (hI.cap j hj)
    · exact hI.names j k x y (hlist j x hx).1 (hlist k y hy).1 hn
    · obtain ⟨hx, hj⟩ := hlist j x hx
      have hne : x.name ≠ p.name := fun he => hj (hI.names j i x p hx hp he)
      simp only [see, hp, hpc]
      split
      · exact (Function.update_of_ne hne _ _).trans (hI.listed j x hx)
      · exact hI.listed j x hx
    · rw [hstored]
      exact hI.removed j x (hlist j x hx).1 hrm q hq hr hlen
  · cases hs

/-- Whether an entry of a plugin that leaves the list is gone. -/
theorem leaving_nil (hI : Inv s h) (hp : s.list i = some p) (hpc : p.pc = .leaving)
    (hrm : p.rmCpTerminate = true) {q : Queue} (hq : p.readQueue.reads q = true) :
    s.store (ownKey p.name q) = .nil ↔
      (ownKey p.name q).length < hsMaxPath ∧ h.stored (ownKey p.name q) = false := by
  by_cases hlen : (ownKey p.name q).length < hsMaxPath
  · rw [hI.removed i p hp hrm q hq (.inl hpc) hlen, and_iff_right hlen]
  · exact iff_of_false (hI.stays i p hp q hq (.inl hpc) (Nat.le_of_not_lt hlen)) fun hn => hlen hn.1

theorem leave_safe (hI : Inv s h) (hS : Safe (s, h)) (hp : s.list i = some p)
    (hpc : p.pc = .leaving) (hs : s.threadStep i p = some s') :
    Safe (s', see s h (.thread i)) ↔ Admits (s, h) (.thread i) := by
  simp only [Plugins.threadStep, hpc] at hs
  split at hs
  · cases hs
    simp only [see, hp, hpc]
    constructor
    · intro hS' x hx _ hrm q hq
      have hx : s.list i = some x := hx
      rw [hp] at hx
      cases hx
      rw [if_pos hrm] at hS'
      have := hS' p.name p.readQueue (by simp) q hq
      exact (leaving_nil hI hp hpc hrm hq).mp this
    · intro hadm name rq hgone q hq
      cases hrm : p.rmCpTerminate with
      | false =>
        simp only [hrm, Bool.false_eq_true, if_false] at hgone
        exact hS name rq hgone q hq
      | true =>
        simp only [hrm, if_true] at hgone
        by_cases hn : name = p.name
        · subst hn
          rw [Function.update_self] at hgone
          cases hgone
          exact (leaving_nil hI hp hpc hrm hq).mpr (hadm p hp hpc hrm q hq)
        · rw [Function.update_of_ne hn] at hgone
          exact hS name rq hgone q hq
  · cases hs

/-! ## The pass -/

theorem writer_only (hI : Inv s h) :
    (s.writerStep.list = s.list ∧ s.writerStep.listCap = s.listCap ∧
      s.writerStep.store = s.store ∧ see s h .writer = h) ∨
    ∃ i p, s.list i = some p ∧ Only s s.writerStep h (see s h .writer) i p p ∧
      Inv s.writerStep (see s h .writer) := by
  cases hpass : s.pass with
  | none => exact .inl (by simp [Plugins.writerStep, see, hpass])
  | some pos =>
    obtain ⟨i, todo⟩ := pos
    cases todo with
    | nil => exact .inl (by simp [Plugins.writerStep, see, hpass])
    | cons q todo =>
      cases hp : s.list i with
      | none => exact .inl (by simp [Plugins.writerStep, see, hpass, hp])
      | some p =>
        right
        have hwriter : s.writerStep = { s.storeEntry p q with pass := some (i, todo) } := by
          simp [Plugins.writerStep, hpass, hp]
        have hsee : see s h .writer = h.setStored (ownKey p.name q) true := by
          simp [see, hpass, hp]
        rw [hwriter, hsee]
        have honly : Only s { s.storeEntry p q with pass := some (i, todo) } h
            (h.setStored (ownKey p.name q) true) i p p :=
          ⟨(Function.update_eq_self_iff.mpr hp.symm).symm, rfl, rfl, rfl, rfl, rfl,
            fun _ hn r => kept_storeEntry rfl hn r⟩
        refine ⟨i, p, hp, honly, honly.inv hI hp ⟨fun hrm r hr hrem hlen => ?_, fun r hr hst hlen => ?_⟩⟩
        · by_cases hrq : r = q
          · subst hrq
            have hstored := storeEntry_same s p r
            refine iff_of_false (fun hn => by cases hstored.symm.trans hn) ?_
            simp [History.setStored]
          · have hne : ownKey p.name r ≠ ownKey p.name q := ownKey_ne _ hrq
            have hstore : ({ s.storeEntry p q with pass := some (i, todo) } : Plugins δ).store
                (ownKey p.name r) = s.store (ownKey p.name r) := storeEntry_other s p q hne
            have hflag : (h.setStored (ownKey p.name q) true).stored (ownKey p.name r) =
                h.stored (ownKey p.name r) := Function.update_of_ne hne _ _
            rw [hstore, hflag]
            exact hI.removed i p hp hrm r hr hrem hlen
        · exact storeEntry_ne_nil q (hI.stays i p hp r hr hst hlen)

/-! ## Loading -/

/-- Removing the entries of the queues that are not read keeps or removes what is under any key. -/
theorem load_kept (s : Plugins δ) (h : History) (i : Nat) (p : Plugin) (rm : Bool) (cp : CheckpointPair)
    (key : List UInt8) :
    Kept s (s.load i p) h (see s h (.load i p.name p.readQueue rm cp)) key := by
  have hstore : (s.load i p).store key =
      if key ∈ unreadKeys p.name p.readQueue then .nil else s.store key := foldl_update _ _ _ _
  have hstored : (see s h (.load i p.name p.readQueue rm cp)).stored key =
      if key ∈ unreadKeys p.name p.readQueue then false else h.stored key := foldl_update _ _ _ _
  by_cases hk : key ∈ unreadKeys p.name p.readQueue
  · refine .inr ⟨?_, hstore.trans (if_pos hk), hstored.trans (if_pos hk)⟩
    obtain ⟨q, -, rfl⟩ := List.mem_map.mp hk
    exact length_snprintf _
  · exact .inl ⟨hstore.trans (if_neg hk), hstored.trans (if_neg hk)⟩

theorem load_inv {rm : Bool} {cp : CheckpointPair} (hI : Inv s h) (hpc : p.pc = .running)
    (hfree : ∀ j < s.listCap, ∀ x ∈ s.list j, x.name ≠ p.name) :
    Inv (s.load i p) (see s h (.load i p.name p.readQueue rm cp)) := by
  have hother : ∀ j x, s.list j = some x → x.name ≠ p.name := by
    intro j x hx
    refine hfree j (Nat.lt_of_not_le fun hj => ?_) x hx
    rw [hI.cap j hj] at hx
    cases hx
  have hlist : ∀ j x, (s.load i p).list j = some x →
      j = i ∧ x = p ∨ j ≠ i ∧ s.list j = some x := by
    intro j x hx
    by_cases hj : j = i
    · subst hj
      have hx : Function.update s.list j (some p) j = some x := hx
      rw [Function.update_self] at hx
      cases hx
      exact .inl ⟨rfl, rfl⟩
    · have hx : Function.update s.list i (some p) j = some x := hx
      rw [Function.update_of_ne hj] at hx
      exact .inr ⟨hj, hx⟩
  have hkept := load_kept s h i p rm cp
  refine ⟨fun j hj => ?_, fun j k x y hx hy hn => ?_, fun j x hx => ?_,
    fun j x hx hrm q hq hr hlen => ?_, fun j x hx q hq hr hlen => ?_⟩
  · have hj : max s.listCap (i + 1) ≤ j := hj
    change Function.update s.list i (some p) j = none
    rw [Function.update_of_ne (by omega)]
    exact hI.cap j (by omega)
  · rcases hlist j x hx with ⟨hj, hxp⟩ | ⟨-, hx'⟩
    · rcases hlist k y hy with ⟨hk, -⟩ | ⟨-, hy'⟩
      · exact hj.trans hk.symm
      · exact absurd (hn.symm.trans (hxp ▸ rfl)) (hother k y hy')
    · rcases hlist k y hy with ⟨-, hyp⟩ | ⟨-, hy'⟩
      · exact absurd (hn.trans (hyp ▸ rfl)) (hother j x hx')
      · exact hI.names j k x y hx' hy' hn
  · rcases hlist j x hx with ⟨rfl, rfl⟩ | ⟨-, hx⟩
    · exact Function.update_self _ _ _
    · exact (Function.update_of_ne (hother j x hx) _ _).trans (hI.listed j x hx)
  · rcases hlist j x hx with ⟨rfl, rfl⟩ | ⟨-, hx⟩
    · rcases hr with hr | ⟨todo, hr, -⟩ <;> cases hpc.symm.trans hr
    · exact (hkept _).iff (hI.removed j x hx hrm q hq hr hlen)
  · rcases hlist j x hx with ⟨rfl, rfl⟩ | ⟨-, hx⟩
    · rcases hr with hr | ⟨todo, hr⟩ | ⟨todo, hr, -⟩ <;> cases hpc.symm.trans hr
    · rw [(hkept _).long hlen]
      exact hI.stays j x hx q hq hr hlen

theorem load_safe {rm : Bool} {cp : CheckpointPair} (hS : Safe (s, h)) :
    Safe (s.load i p, see s h (.load i p.name p.readQueue rm cp)) := by
  intro n rq hgone q hq
  have hgone : rq ∈ Function.update h.gone p.name none n := hgone
  by_cases hn : n = p.name
  · subst hn
    rw [Function.update_self] at hgone
    cases hgone
  · rw [Function.update_of_ne hn] at hgone
    exact (load_kept s h i p rm cp _).nil (hS n rq hgone q hq)

/-! ## Runs -/

theorem step_thread (hs : s.step (.thread i) = some s') :
    ∃ p, s.list i = some p ∧ s.threadStep i p = some s' := by
  simp only [Plugins.step] at hs
  split at hs
  · rename_i p hp
    exact ⟨p, hp, hs⟩
  · cases hs

theorem step_advance {cp : CheckpointPair} (hs : s.step (.advance i cp) = some s') :
    ∃ p, s.list i = some p ∧ p.pc = .running ∧
      s' = { s with list := Function.update s.list i (some { p with cp := cp }) } := by
  simp only [Plugins.step] at hs
  split at hs
  · rename_i p hp
    simp only [Option.ite_none_right_eq_some, Option.some.injEq] at hs
    exact ⟨p, hp, hs.1.1, hs.2.symm⟩
  · cases hs

theorem step_load {name : Basename} {rq : ReadQueue} {rm : Bool} {cp : CheckpointPair}
    (hs : s.step (.load i name rq rm cp) = some s') :
    (∀ j < s.listCap, ∀ p ∈ s.list j, p.name ≠ name) ∧ s' = s.load i ⟨name, rq, rm, cp, .running⟩ := by
  simp only [Plugins.step, Option.ite_none_right_eq_some, Option.some.injEq] at hs
  obtain ⟨⟨-, -, -, -, hfree⟩, rfl⟩ := hs
  exact ⟨hfree, rfl⟩

theorem step_inv {e : Event} (hI : Inv s h) (hs : s.step e = some s') : Inv s' (see s h e) := by
  cases e with
  | thread i =>
    obtain ⟨p, hp, hthread⟩ := step_thread hs
    by_cases hpc : p.pc = .leaving
    · exact leave_inv hI hp hpc hthread
    · exact (thread_only hI hp hpc hthread).choose_spec.2
  | writer =>
    cases hs
    rcases writer_only hI with ⟨hlist, hcap, hstore, hsee⟩ | ⟨i, p, -, -, hinv⟩
    · rw [hsee]
      exact ⟨by rw [hlist, hcap]; exact hI.cap, by rw [hlist]; exact hI.names,
        by rw [hlist]; exact hI.listed, by rw [hlist, hstore]; exact hI.removed,
        by rw [hlist, hstore]; exact hI.stays⟩
    · exact hinv
  | advance i cp =>
    obtain ⟨p, hp, hpc, rfl⟩ := step_advance hs
    have honly : Only s { s with list := Function.update s.list i (some { p with cp := cp }) } h h
        i p { p with cp := cp } :=
      ⟨rfl, rfl, rfl, rfl, rfl, rfl, fun _ _ _ => Kept.rfl⟩
    refine honly.inv hI hp ⟨fun _ q _ hr => ?_, fun q _ hr => ?_⟩
    · rcases hr with hr | ⟨todo, hr, -⟩ <;> cases hpc.symm.trans hr
    · rcases hr with hr | ⟨todo, hr⟩ | ⟨todo, hr, -⟩ <;> cases hpc.symm.trans hr
  | load i name rq rm cp =>
    obtain ⟨hfree, rfl⟩ := step_load hs
    exact load_inv hI rfl hfree

theorem step_safe {e : Event} (hI : Inv s h) (hS : Safe (s, h)) (hs : s.step e = some s') :
    Safe (s', see s h e) ↔ Admits (s, h) e := by
  cases e with
  | thread i =>
    obtain ⟨p, hp, hthread⟩ := step_thread hs
    by_cases hpc : p.pc = .leaving
    · exact leave_safe hI hS hp hpc hthread
    · obtain ⟨p', honly, -⟩ := thread_only hI hp hpc hthread
      refine iff_of_true (honly.safe hI hp hS) fun x hx hl => ?_
      cases hp.symm.trans hx
      exact absurd hl hpc
  | writer =>
    cases hs
    refine iff_of_true ?_ trivial
    rcases writer_only hI with ⟨-, -, hstore, hsee⟩ | ⟨i, p, hp, honly, -⟩
    · intro name rq hgone q hq
      simp only [hsee] at hgone
      change s.writerStep.store (ownKey name q) = .nil
      rw [hstore]
      exact hS name rq hgone q hq
    · exact honly.safe hI hp hS
  | advance i cp =>
    obtain ⟨p, hp, hpc, rfl⟩ := step_advance hs
    exact iff_of_true hS trivial
  | load i name rq rm cp =>
    obtain ⟨-, rfl⟩ := step_load hs
    exact iff_of_true (load_safe hS) trivial

end

/-- No plugin is loaded yet; the store may hold anything. -/
def start (store : Globals δ) : State δ :=
  (⟨fun _ => none, 0, store, none⟩, ⟨fun _ => none, fun _ => false⟩)

theorem start_inv (store : Globals δ) : Inv (start store).1 (start store).2 :=
  ⟨fun _ _ => rfl, fun _ _ _ _ hx => (by cases hx), fun _ _ hx => (by cases hx),
    fun _ _ hx => (by cases hx), fun _ _ hx => (by cases hx)⟩

/-- In a run of plugin threads, passes and loads no position of a plugin that left the list for good
is ever in the store exactly when no plugin leaves the list with a key that does not fit, or after a
pass stored a position that the plugin had removed. -/
theorem removed_iff (store : Globals δ) (es : List Event) :
    Runs.Always step Safe (start store) es ↔ Runs.Meets step Admits (start store) es := by
  refine Runs.always_iff_meets (I := fun s : State δ => Inv s.1 s.2) ?_ ?_ (start_inv store) ?_ es
  · intro s e s' hI hs
    obtain ⟨hs, hl⟩ := Runs.observe_some.mp hs
    rw [hl]
    exact step_inv hI hs
  · rintro ⟨s, h⟩ e ⟨s', h'⟩ hI hS hs
    obtain ⟨hstep, rfl⟩ := Runs.observe_some.mp hs
    exact step_safe hI hS hstep
  · intro name rq hgone
    cases hgone

/-- A pass comes between the removal of the position and the end of the plugin. -/
def staleRun (name : Basename) : List Event :=
  [.load 0 name .input true ⟨⟨3, 40⟩, ⟨0, 0⟩⟩, .thread 0, .thread 0, .thread 0, .thread 0,
    .thread 0, .writer, .writer, .writer, .thread 0]

theorem removed_fails :
    ¬∀ (store : Globals Nat) (es : List Event), Runs.Always step Safe (start store) es := by
  intro h
  let name : Basename := ⟨[97], by decide, by decide, by decide⟩
  obtain ⟨t, hrun, hgone, hstore⟩ : ∃ t,
      Runs.run step (start fun _ => .nil) (staleRun name) = some t ∧ t.2.gone name = some .input ∧
        t.1.store (ownKey name .input) = .str (positionText ⟨3, 40⟩) := ⟨_, rfl, rfl, rfl⟩
  have := (h _ _).run hrun name .input hgone .input rfl
  rw [hstore] at this
  cases this

end CheckpointRemoval

end Hindsight
