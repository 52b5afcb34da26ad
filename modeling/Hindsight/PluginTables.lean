import Hindsight.Lib.Run
import Hindsight.Lib.Slots
import Hindsight.PluginList

/-!
# Hindsight.PluginTables

The lists of the input and of the output plugins: `list`, `list_cnt`, and the `list_index` of each plugin.
The main thread adds and removes plugins, and the thread of a plugin takes itself off when its plugin
terminates. Each does it in a section that holds `list_lock`, one statement a step; the other threads go
on meanwhile, and the main thread waits in the middle of a section for the thread it removes. An input
thread that does not end in time stays in the list. The counters do not overflow.

* `Good`: the count, the slots and the indices agree, and every plugin that is allocated is in the list.
* `Outline`: what holds ahead of each statement of a section. After the last one the table is good, and
  ahead of a join that may fail as well.
* `JoinedFirst`: a section does not destroy a plugin ahead of the end of its thread.
* `removePlugin_list`: a whole removal is the one of `PluginList`.
* `ClearsOwn`: the section of a plugin that terminates clears the slot it is in and no other.
* `tables_consistent`: in every run the table is consistent when no one holds the lock, and the plugins
  that terminate clear their own slots.
-/

namespace Hindsight

namespace PluginTables

open PluginList (nameMatches hsInputDir hsOutputDir)

inductive Kind where
  | input
  | output
  deriving DecidableEq, Repr

/-- A pointer to a plugin. -/
abbrev Addr := Nat

/-- `list_cap` is the length of `list`; `listIndex` is there for the plugins that are allocated. -/
structure Table where
  list : List (Option Addr)
  listCnt : Int
  listIndex : Addr → Option Int

/-- The statements of the sections: `++list_cap` with the `realloc`, `list[idx] = p`,
`p->list_index = idx`, `++list_cnt`, `list[idx] = NULL`, `list[p->list_index] = NULL`, the `sem_post` of an
input plugin or `p->stop = true` of an output plugin, the join, the destruction, and `--list_cnt`. -/
inductive Stmt where
  | grow
  | put (a : Addr) (idx : Nat)
  | setIndex (a : Addr) (idx : Nat)
  | increment
  | clear (idx : Nat)
  | clearOwn (a : Addr)
  | signal (a : Addr)
  | join (a : Addr)
  | destroy (a : Addr)
  | decrement
  deriving DecidableEq, Repr

/-- What a statement does to the table. -/
def Table.exec (t : Table) : Stmt → Table
  | .grow => { t with list := t.list ++ [none] }
  | .put a idx => { t with list := t.list.set idx (some a) }
  | .setIndex a idx =>
    { t with listIndex := Function.update t.listIndex a ((t.listIndex a).map fun _ => (idx : Int)) }
  | .increment => { t with listCnt := t.listCnt + 1 }
  | .clear idx => { t with list := t.list.set idx none }
  | .clearOwn a =>
    match t.listIndex a with
    | some (.ofNat idx) => { t with list := t.list.set idx none }
    | _ => t
  | .signal _ => t
  | .join _ => t
  | .destroy a => { t with listIndex := Function.update t.listIndex a none }
  | .decrement => { t with listCnt := t.listCnt - 1 }

/-! ## The sections -/

/-- `add_plugin`. -/
def addPlugin (a : Addr) (idx : Nat) : List Stmt := [.put a idx, .setIndex a idx, .increment]

/-- `add_to_input_plugins`, `add_to_output_plugins`: the first free slot, or a new one. -/
def addToPlugins (t : Table) (a : Addr) : List Stmt :=
  let idx := Slots.firstFree t.list
  if idx < t.list.length then addPlugin a idx else .grow :: addPlugin a idx

/-- `join_thread` of the input plugins, when one of its joins succeeds. -/
def joinThread (a : Addr) : List Stmt := [.join a, .destroy a, .decrement]

/-- `remove_plugin`. -/
def removePlugin (kind : Kind) (a : Addr) (idx : Nat) : List Stmt :=
  match kind with
  | .input => .signal a :: (joinThread a ++ [.clear idx])
  | .output => [.clear idx, .signal a, .join a, .destroy a, .decrement]

/-- The end of `input_thread`, when it was not asked to stop. -/
def terminate (a : Addr) : List Stmt := [.clearOwn a, .destroy a, .decrement]

/-! ## The threads -/

/-- Where the thread of a plugin is. `detaching` is a thread that left its loop without having been asked
to and needs `list_lock`, `detached` one that had it; `exited` can be joined. -/
inductive ThreadPc where
  | created
  | running
  | detaching
  | detached
  | exited
  deriving DecidableEq, Repr

/-- `shutdown` is the semaphore of an input plugin, `cancel` says that its thread was cancelled; `stop` is
the flag of an output plugin. -/
structure Plugin where
  name : List Char
  shutdown : Nat
  cancel : Bool
  stop : Bool
  pc : ThreadPc
  deriving DecidableEq, Repr

inductive Owner where
  | main
  | thread (a : Addr)
  deriving DecidableEq, Repr

/-- `holder` has `list_lock`, and `rest` is left of its section. The main thread is about to create the
thread of `starting`. -/
structure State where
  table : Table
  plugins : Addr → Plugin
  holder : Option Owner
  rest : List Stmt
  starting : Option Addr

def State.set (s : State) (a : Addr) (p : Plugin) : State :=
  { s with plugins := Function.update s.plugins a p }

/-- `hs_init_input_plugins`, `hs_init_output_plugins`. -/
def init : State where
  table := ⟨[], 0, fun _ => none⟩
  plugins := fun _ => ⟨[], 0, false, false, .created⟩
  holder := none
  rest := []
  starting := none

/-- The main thread creates a plugin and adds it, creates its thread, removes a plugin by the name of a
file, or asks all to stop; the owner of the lock executes a statement; the thread that is joined is
cancelled, or the last join times out; the thread of a plugin leaves its loop, having been asked to or not,
or ends because it was cancelled; and it takes the lock to leave the list. -/
inductive Event where
  | create (a : Addr) (name : List Char)
  | start
  | remove (fn : List Char)
  | stopAll
  | exec
  | cancel
  | timeOut
  | leave (a : Addr) (asked : Bool)
  | cancelled (a : Addr)
  | detach (a : Addr)
  deriving DecidableEq, Repr

section

variable (kind : Kind)

def pluginDir : Kind → List Char
  | .input => hsInputDir
  | .output => hsOutputDir

/-- How a plugin is asked to stop. -/
def Plugin.signal (p : Plugin) : Plugin :=
  match kind with
  | .input => { p with shutdown := p.shutdown + 1 }
  | .output => { p with stop := true }

/-- The main thread is in none of its functions. -/
def Idle (s : State) : Prop := s.holder = none ∧ s.starting = none

instance (s : State) : Decidable (Idle s) := inferInstanceAs (Decidable (_ ∧ _))

/-- `create_input_plugin` or `create_output_plugin`, with a pointer that is not in use, and the lock. -/
def create (a : Addr) (name : List Char) (s : State) : Option State :=
  if Idle s ∧ s.table.listIndex a = none then
    let t := { s.table with listIndex := Function.update s.table.listIndex a (some (-1)) }
    some {
      table := t
      plugins := Function.update s.plugins a ⟨name, 0, false, false, .created⟩
      holder := some .main
      rest := addToPlugins t a
      starting := some a }
  else none

/-- `pthread_create`. -/
def startThread (s : State) : Option State :=
  match s.starting with
  | none => none
  | some a =>
    if s.holder = some .main then none
    else some ({ s with starting := none }.set a { s.plugins a with pc := .running })

/-- `remove_from_input_plugins`, `remove_from_output_plugins`: the first plugin that matches. -/
def removeFromPlugins (fn : List Char) (s : State) : Option State :=
  if Idle s then
    match Slots.firstWith (fun a => nameMatches (pluginDir kind) fn (s.plugins a).name) s.table.list with
    | none => some s
    | some (idx, a) => some { s with holder := some .main, rest := removePlugin kind a idx }
  else none

/-- `hs_stop_input_plugins`, `hs_stop_output_plugins`. -/
def stopPlugins (s : State) : Option State :=
  if Idle s then
    let plugins := fun a =>
      if some a ∈ s.table.list then (s.plugins a).signal kind else s.plugins a
    some { s with plugins := plugins }
  else none

/-- The lock is given back after the last statement. -/
def State.advance (s : State) (st : Stmt) (rest : List Stmt) : State :=
  { s with
    table := s.table.exec st
    holder := if rest = [] then none else s.holder
    rest := rest }

/-- A join needs the end of the thread. -/
def execStmt (s : State) : Option State :=
  match s.rest with
  | [] => none
  | .join a :: rest => if (s.plugins a).pc = .exited then some (s.advance (.join a) rest) else none
  | .signal a :: rest => some ((s.advance (.signal a) rest).set a ((s.plugins a).signal kind))
  | st :: rest => some (s.advance st rest)

/-- `pthread_cancel`, after two joins timed out. -/
def cancelThread (s : State) : Option State :=
  match kind, s.rest with
  | .input, .join a :: _ => some (s.set a { s.plugins a with cancel := true })
  | _, _ => none

/-- The join after it times out as well, and `remove_plugin` leaves the plugin where it is. -/
def timeOut (s : State) : Option State :=
  match kind, s.rest with
  | .input, .join a :: _ =>
    if (s.plugins a).cancel then some { s with holder := none, rest := [] } else none
  | _, _ => none

/-- `sem_trywait` of an input plugin; the thread of an output plugin may have read `stop` before it was
set. -/
def leaveLoop (a : Addr) (asked : Bool) (s : State) : Option State :=
  let p := s.plugins a
  if p.pc = .running then
    match kind, asked with
    | .input, true =>
      if 0 < p.shutdown then some (s.set a { p with shutdown := p.shutdown - 1, pc := .exited }) else none
    | .input, false => if p.shutdown = 0 then some (s.set a { p with pc := .detaching }) else none
    | .output, true => if p.stop then some (s.set a { p with pc := .exited }) else none
    | .output, false => some (s.set a { p with pc := .detaching })
  else none

def endCancelled (a : Addr) (s : State) : Option State :=
  let p := s.plugins a
  if p.pc = .running ∧ p.cancel = true then some (s.set a { p with pc := .exited }) else none

/-- The thread of a plugin that terminated takes the lock, and detaches itself. -/
def detach (a : Addr) (s : State) : Option State :=
  let p := s.plugins a
  if p.pc = .detaching ∧ s.holder = none then
    some ({ s with holder := some (.thread a), rest := terminate a }.set a { p with pc := .detached })
  else none

def step (s : State) : Event → Option State
  | .create a name => create a name s
  | .start => startThread s
  | .remove fn => removeFromPlugins kind fn s
  | .stopAll => stopPlugins kind s
  | .exec => execStmt kind s
  | .cancel => cancelThread kind s
  | .timeOut => timeOut kind s
  | .leave a asked => leaveLoop kind a asked s
  | .cancelled a => endCancelled a s
  | .detach a => detach a s

end

/-! ## The table -/

/-- The count is that of the occupied slots, and every listed plugin is in one slot, its index. -/
structure Consistent (t : Table) : Prop where
  count : t.listCnt = Slots.occupied t.list
  index : ∀ (i : Nat) a, t.list[i]? = some (some a) → t.listIndex a = some (i : Int)
  slot : ∀ (i j : Nat) a, t.list[i]? = some (some a) → t.list[j]? = some (some a) → i = j

/-- And every plugin that is allocated is listed. -/
structure Good (t : Table) : Prop where
  count : t.listCnt = Slots.occupied t.list
  index : ∀ (i : Nat) a, t.list[i]? = some (some a) → t.listIndex a = some (i : Int)
  listed : ∀ a, t.listIndex a ≠ none → ∃ i : Nat, t.list[i]? = some (some a)

section

variable {t : Table} {a b : Addr} {i : Nat}

theorem Good.slot (h : Good t) {j : Nat} (hi : t.list[i]? = some (some a)) (hj : t.list[j]? = some (some a)) :
    i = j := by
  have heq := (h.index i a hi).symm.trans (h.index j a hj)
  exact Int.ofNat.inj (Option.some.inj heq)

theorem Good.consistent (h : Good t) : Consistent t := ⟨h.count, h.index, fun _ _ _ => h.slot⟩

/-- The slot of an allocated plugin is its index. -/
theorem Good.own (h : Good t) (ha : t.listIndex a ≠ none) :
    ∃ i : Nat, t.list[i]? = some (some a) ∧ t.listIndex a = some (i : Int) := by
  obtain ⟨i, hi⟩ := h.listed a ha
  exact ⟨i, hi, h.index i a hi⟩

/-- A plugin that was just allocated goes into the first free slot. -/
theorem good_fill (h : Good t) (ha : t.listIndex a = none) :
    Good ⟨(Slots.grown t.list).set (Slots.firstFree t.list) (some a), t.listCnt + 1,
      Function.update t.listIndex a (some (Slots.firstFree t.list : Int))⟩ := by
  have hfree : (Slots.grown t.list)[Slots.firstFree t.list]? = some none := Slots.getElem?_firstFree
  refine ⟨?_, fun i b hb => ?_, fun b hb => ?_⟩
  · rw [Slots.occupied_fill hfree, Slots.occupied_grown, h.count]
    rfl
  · rcases (Slots.getElem?_fill hfree).mp hb with ⟨rfl, rfl⟩ | hb
    · exact Function.update_self ..
    · have hindex := h.index i b (Slots.getElem?_grown.mp hb)
      have hne : b ≠ a := by
        rintro rfl
        rw [ha] at hindex
        cases hindex
      exact (Function.update_of_ne hne ..).trans hindex
  · by_cases hba : b = a
    · exact ⟨_, (Slots.getElem?_fill hfree).mpr (.inl ⟨rfl, hba⟩)⟩
    · have hb : t.listIndex b ≠ none := fun hn => hb ((Function.update_of_ne hba ..).trans hn)
      obtain ⟨i, hi⟩ := h.listed b hb
      exact ⟨i, (Slots.getElem?_fill hfree).mpr (.inr (Slots.getElem?_grown.mpr hi))⟩

/-- A plugin that is destroyed leaves its slot free. -/
theorem good_clear (h : Good t) (ha : t.list[i]? = some (some a)) :
    Good ⟨t.list.set i none, t.listCnt - 1, Function.update t.listIndex a none⟩ := by
  refine ⟨?_, fun j b hb => ?_, fun b hb => ?_⟩
  · have hcount := h.count
    have hclear := Slots.occupied_clear ha
    change t.listCnt - 1 = (Slots.occupied (t.list.set i none) : Int)
    omega
  · obtain ⟨hji, hj⟩ : j ≠ i ∧ t.list[j]? = some (some b) := Slots.getElem?_clear.mp hb
    have hne : b ≠ a := by
      rintro rfl
      exact hji (h.slot hj ha)
    exact (Function.update_of_ne hne ..).trans (h.index j b hj)
  · have hne : b ≠ a := by
      rintro rfl
      exact hb (Function.update_self ..)
    have hb : t.listIndex b ≠ none := fun hn => hb ((Function.update_of_ne hne ..).trans hn)
    obtain ⟨j, hj⟩ := h.listed b hb
    refine ⟨j, Slots.getElem?_clear.mpr ⟨?_, hj⟩⟩
    rintro rfl
    exact hne (Option.some.inj (Option.some.inj (hj.symm.trans ha)))

end

/-! ## What holds along a section -/

/-- What is needed ahead of a statement. After a join of an input plugin that times out nothing more is
done. -/
def Pre (kind : Kind) (t : Table) : Stmt → Prop
  | .join _ => kind = .input → Good t
  | .clearOwn a => ∃ i : Nat, t.list[i]? = some (some a) ∧ t.listIndex a = some (i : Int)
  | _ => True

/-- The statements have what they need, and the table is good after the last one. -/
def Outline (kind : Kind) : Table → List Stmt → Prop
  | t, [] => Good t
  | t, st :: rest => Pre kind t st ∧ Outline kind (t.exec st) rest

/-- A plugin is destroyed only after its thread was joined. -/
def JoinedFirst (a : Addr) : List Stmt → Prop
  | [] => True
  | .join b :: rest => b = a ∨ JoinedFirst a rest
  | .destroy b :: rest => b ≠ a ∧ JoinedFirst a rest
  | _ :: rest => JoinedFirst a rest

section

variable {kind : Kind} {t : Table} {a b : Addr} {i : Nat}

theorem outline_add (h : Good t) (ha : t.listIndex a = none) :
    let t' := { t with listIndex := Function.update t.listIndex a (some (-1)) }
    Outline kind t' (addToPlugins t' a) := by
  have hgood := good_fill h ha
  simp only [addToPlugins]
  split
  · rename_i hlt
    rw [Slots.grown, if_pos hlt] at hgood
    simpa [addPlugin, Outline, Pre, Table.exec] using hgood
  · rename_i hlt
    rw [Slots.grown, if_neg hlt] at hgood
    simpa [addPlugin, Outline, Pre, Table.exec] using hgood

theorem outline_remove (h : Good t) (ha : t.list[i]? = some (some a)) :
    Outline kind t (removePlugin kind a i) := by
  have hgood := good_clear h ha
  cases kind with
  | input => exact ⟨trivial, fun _ => h, trivial, trivial, trivial, hgood⟩
  | output => exact ⟨trivial, trivial, fun hk => (by cases hk), trivial, trivial, hgood⟩

theorem removeFirst_eq_set {test : Addr → Bool} {xs : List (Option Addr)} {r : Nat × Addr}
    (h : Slots.firstWith test xs = some r) :
    PluginList.removeFirst test (fun _ => none) xs = xs.set r.1 none := by
  induction xs generalizing r with
  | nil => cases h
  | cons x xs ih =>
    cases x with
    | none =>
      obtain ⟨q, hq, rfl⟩ := Option.map_eq_some_iff.mp h
      rw [PluginList.removeFirst, ih hq, List.set_cons_succ]
    | some b =>
      rw [Slots.firstWith] at h
      rw [PluginList.removeFirst]
      split at h
      · rename_i htest
        cases h
        rw [if_pos htest, List.set_cons_zero]
      · rename_i htest
        obtain ⟨q, hq, rfl⟩ := Option.map_eq_some_iff.mp h
        rw [if_neg htest, ih hq, List.set_cons_succ]

/-- The removal empties the slot of the first plugin that matches. -/
theorem removePlugin_list {test : Addr → Bool} (h : Slots.firstWith test t.list = some (i, a)) :
    ((removePlugin kind a i).foldl Table.exec t).list =
      PluginList.removeFirst test (fun _ => none) t.list := by
  have hlist : ((removePlugin kind a i).foldl Table.exec t).list = t.list.set i none := by
    cases kind <;> rfl
  rw [hlist, removeFirst_eq_set h]

theorem outline_terminate (h : Good t) (ha : t.listIndex a ≠ none) : Outline kind t (terminate a) := by
  obtain ⟨i, hi, hindex⟩ := h.own ha
  have hgood := good_clear h hi
  refine ⟨⟨i, hi, hindex⟩, trivial, trivial, ?_⟩
  simpa [Outline, Table.exec, hindex] using hgood

theorem joinedFirst_add : JoinedFirst b (addToPlugins t a) := by
  simp only [addToPlugins]
  split <;> trivial

theorem joinedFirst_remove : JoinedFirst b (removePlugin kind a i) := by
  by_cases hb : a = b
  · cases kind <;> exact .inl hb
  · cases kind <;> exact .inr ⟨hb, trivial⟩

theorem joinedFirst_terminate (hb : a ≠ b) : JoinedFirst b (terminate a) := ⟨hb, trivial⟩

/-- A statement keeps the plugins allocated that it does not destroy. -/
theorem exec_allocated {st : Stmt} (hst : st ≠ .destroy b) (hb : t.listIndex b ≠ none) :
    (t.exec st).listIndex b ≠ none := by
  cases st with
  | setIndex a idx =>
    by_cases hba : b = a
    · subst hba
      simpa [Table.exec] using hb
    · intro hn
      exact hb ((Function.update_of_ne hba ..).symm.trans hn)
  | destroy a =>
    have hba : b ≠ a := fun h => hst (by rw [h])
    intro hn
    exact hb ((Function.update_of_ne hba ..).symm.trans hn)
  | clearOwn a =>
    simp only [Table.exec]
    split
    · exact hb
    · exact hb
  | grow | put | increment | clear | signal | join | decrement => exact hb

end

/-! ## The invariant -/

/-- A plugin that has a thread which can still use it, or is about to get one. -/
def Alive (s : State) (a : Addr) : Prop :=
  s.starting = some a ∨ (s.plugins a).pc = .running ∨ (s.plugins a).pc = .detaching

/-- What is left of the section is outlined, and it does not destroy a plugin whose thread is alive. -/
structure Inv (kind : Kind) (s : State) : Prop where
  outline : Outline kind s.table s.rest
  free : s.holder = none → s.rest = []
  owner : ∀ a, s.holder = some (.thread a) → s.rest <:+ terminate a
  gone : ∀ a, s.holder = some (.thread a) → s.rest ≠ terminate a → some a ∉ s.table.list
  alive : ∀ a, Alive s a → s.table.listIndex a ≠ none ∧ JoinedFirst a s.rest
  starting : ∀ a, s.starting = some a → (s.plugins a).pc = .created

section

variable {kind : Kind} {s s' : State} {a : Addr}

theorem Inv.good (h : Inv kind s) (hfree : s.holder = none) : Good s.table := by
  have hout := h.outline
  rw [h.free hfree] at hout
  exact hout


theorem set_plugins_self (p : Plugin) : (s.set a p).plugins a = p := Function.update_self ..

theorem set_plugins_ne (p : Plugin) {b : Addr} (h : b ≠ a) : (s.set a p).plugins b = s.plugins b :=
  Function.update_of_ne h ..

/-- A change of a plugin brings no thread to life that was not. -/
theorem alive_of_set {p : Plugin} {b : Addr} (h : Alive (s.set a p) b)
    (hp : p.pc = (s.plugins a).pc ∨ (s.plugins a).pc = .running) : Alive s b := by
  by_cases hb : b = a
  · subst hb
    rcases h with h | h
    · exact .inl h
    · rw [set_plugins_self] at h
      rcases hp with hp | hp
      · rw [hp] at h
        exact .inr h
      · exact .inr (.inl hp)
  · rwa [Alive, set_plugins_ne p hb] at h

theorem inv_set (h : Inv kind s) {p : Plugin}
    (hp : p.pc = (s.plugins a).pc ∨ (s.plugins a).pc = .running) : Inv kind (s.set a p) := by
  refine ⟨h.outline, h.free, h.owner, h.gone, fun b hb => h.alive b (alive_of_set hb hp), fun b hb => ?_⟩
  have hcreated := h.starting b hb
  by_cases hba : b = a
  · subst hba
    rw [set_plugins_self]
    rcases hp with hp | hp
    · exact hp.trans hcreated
    · rw [hp] at hcreated
      cases hcreated
  · rwa [set_plugins_ne p hba]

theorem inv_create {name : List Char} (h : Inv kind s) (hs : create a name s = some s') : Inv kind s' := by
  unfold create at hs
  obtain ⟨⟨hidle, ha⟩, hs⟩ := Option.ite_none_right_eq_some.mp hs
  obtain rfl := Option.some.inj hs
  have hgood := h.good hidle.1
  refine ⟨outline_add hgood ha, fun hn => (by cases hn), fun b hb => (by cases hb), fun b hb => (by cases hb),
    fun b hb => ⟨?_, joinedFirst_add⟩, fun b hb => ?_⟩
  · by_cases hba : b = a
    · subst hba
      simp
    · have halive : Alive s b := by
        refine .inr ?_
        simpa [Alive, Function.update_of_ne hba, Ne.symm hba] using hb
      intro hn
      exact (h.alive b halive).1 ((Function.update_of_ne hba ..).symm.trans hn)
  · obtain rfl := Option.some.inj hb
    change (Function.update s.plugins a _ a).pc = .created
    rw [Function.update_self]

theorem inv_start (h : Inv kind s) (hs : startThread s = some s') : Inv kind s' := by
  unfold startThread at hs
  split at hs
  · cases hs
  · rename_i a ha
    split at hs
    · cases hs
    · obtain rfl := Option.some.inj hs
      refine ⟨h.outline, h.free, h.owner, h.gone, fun b hb => h.alive b ?_, fun b hb => (by cases hb)⟩
      by_cases hba : b = a
      · exact .inl (hba ▸ ha)
      · rcases hb with hb | hb
        · cases hb
        · rw [set_plugins_ne _ hba] at hb
          exact .inr hb

theorem inv_remove {fn : List Char} (h : Inv kind s) (hs : removeFromPlugins kind fn s = some s') :
    Inv kind s' := by
  unfold removeFromPlugins at hs
  obtain ⟨hidle, hs⟩ := Option.ite_none_right_eq_some.mp hs
  split at hs
  · obtain rfl := Option.some.inj hs
    exact h
  · rename_i idx a hfirst
    obtain rfl := Option.some.inj hs
    have hslot := (Slots.firstWith_some hfirst).1
    exact ⟨outline_remove (h.good hidle.1) hslot, fun hn => (by cases hn), fun b hb => (by cases hb),
      fun b hb => (by cases hb), fun b hb => ⟨(h.alive b hb).1, joinedFirst_remove⟩, h.starting⟩

theorem signal_pc (p : Plugin) : (p.signal kind).pc = p.pc := by
  cases kind <;> rfl

theorem inv_stop (h : Inv kind s) (hs : stopPlugins kind s = some s') : Inv kind s' := by
  unfold stopPlugins at hs
  obtain ⟨-, hs⟩ := Option.ite_none_right_eq_some.mp hs
  obtain rfl := Option.some.inj hs
  have hpc : ∀ b, (if some b ∈ s.table.list then (s.plugins b).signal kind else s.plugins b).pc =
      (s.plugins b).pc := by
    intro b
    split
    · exact signal_pc _
    · rfl
  refine ⟨h.outline, h.free, h.owner, h.gone, fun b hb => h.alive b ?_,
    fun b hb => (hpc b).trans (h.starting b hb)⟩
  rwa [Alive, hpc b] at hb

theorem joinedFirst_tail {st : Stmt} {rest : List Stmt} (h : JoinedFirst a (st :: rest))
    (hst : st ≠ .join a) : JoinedFirst a rest := by
  cases st with
  | join b => exact h.resolve_left fun hb => hst (by rw [hb])
  | destroy b => exact h.2
  | grow | put | setIndex | increment | clear | clearOwn | signal | decrement => exact h

theorem not_destroy {st : Stmt} {rest : List Stmt} (h : JoinedFirst a (st :: rest)) :
    st ≠ .destroy a := by
  rintro rfl
  exact h.1 rfl

/-- After the first statement of its section a plugin that terminates is not in the list. -/
theorem gone_advance {st : Stmt} {rest : List Stmt} (h : Inv kind s) (hrest : s.rest = st :: rest)
    (ha : s.holder = some (.thread a)) : some a ∉ (s.table.exec st).list := by
  by_cases hfirst : s.rest = terminate a
  · obtain ⟨rfl, rfl⟩ := List.cons.inj (hrest.symm.trans hfirst)
    have hout := h.outline
    rw [hrest] at hout
    have hgood : Good (((s.table.exec (.clearOwn a)).exec (.destroy a)).exec .decrement) := hout.2.2.2
    intro hmem
    obtain ⟨i, hi⟩ := List.mem_iff_getElem?.mp hmem
    have hindex := hgood.index i a hi
    rw [show (((s.table.exec (.clearOwn a)).exec (.destroy a)).exec .decrement).listIndex a = none from
      Function.update_self ..] at hindex
    cases hindex
  · have hsuffix := h.owner a ha
    rw [terminate, List.suffix_cons_iff] at hsuffix
    have hmem := (hsuffix.resolve_left hfirst).subset (hrest ▸ List.mem_cons_self)
    simp only [List.mem_cons, List.not_mem_nil, or_false] at hmem
    rcases hmem with rfl | rfl
    · exact h.gone a ha hfirst
    · exact h.gone a ha hfirst

/-- A statement of the section, where the plugin whose thread was joined has none that is alive. -/
theorem inv_advance {st : Stmt} {rest : List Stmt} (h : Inv kind s) (hrest : s.rest = st :: rest)
    (hjoin : ∀ a, st = .join a → (s.plugins a).pc = .exited) : Inv kind (s.advance st rest) := by
  have hout := h.outline
  rw [hrest] at hout
  refine ⟨hout.2, fun hn => ?_, fun a ha => ?_, fun a ha _ => ?_, fun a ha => ?_, h.starting⟩
  · by_contra hne
    have hholder : s.holder = none := (if_neg hne).symm.trans hn
    rw [h.free hholder] at hrest
    cases hrest
  · obtain ⟨-, hholder⟩ := Option.ite_none_left_eq_some.mp ha
    exact (hrest ▸ List.suffix_cons st rest).trans (h.owner a hholder)
  · obtain ⟨-, hholder⟩ := Option.ite_none_left_eq_some.mp ha
    exact gone_advance h hrest hholder
  · obtain ⟨halloc, hfirst⟩ := h.alive a ha
    rw [hrest] at hfirst
    refine ⟨exec_allocated (not_destroy hfirst) halloc, joinedFirst_tail hfirst fun hst => ?_⟩
    have hexited := hjoin a hst
    rcases ha with ha | ha | ha
    · have hcreated := h.starting a ha
      rw [hexited] at hcreated
      cases hcreated
    · change (s.plugins a).pc = .running at ha
      rw [hexited] at ha
      cases ha
    · change (s.plugins a).pc = .detaching at ha
      rw [hexited] at ha
      cases ha

theorem inv_exec (h : Inv kind s) (hs : execStmt kind s = some s') : Inv kind s' := by
  unfold execStmt at hs
  split at hs
  · cases hs
  · rename_i a rest hrest
    obtain ⟨hexited, hs⟩ := Option.ite_none_right_eq_some.mp hs
    obtain rfl := Option.some.inj hs
    refine inv_advance h hrest fun b hb => ?_
    obtain rfl := Stmt.join.inj hb
    exact hexited
  · rename_i a rest hrest
    obtain rfl := Option.some.inj hs
    exact inv_set (inv_advance h hrest fun b hb => (by cases hb)) (.inl (signal_pc _))
  · rename_i st rest hjoin hsignal hrest
    obtain rfl := Option.some.inj hs
    exact inv_advance h hrest fun b hb => absurd hb (hjoin b)

theorem inv_cancel (h : Inv kind s) (hs : cancelThread kind s = some s') : Inv kind s' := by
  unfold cancelThread at hs
  split at hs
  · obtain rfl := Option.some.inj hs
    exact inv_set h (.inl rfl)
  · cases hs

/-- A join that times out leaves the table as it was ahead of the section. -/
theorem inv_timeOut (h : Inv kind s) (hs : timeOut kind s = some s') : Inv kind s' := by
  unfold timeOut at hs
  split at hs
  · rename_i a rest hrest
    obtain ⟨-, hs⟩ := Option.ite_none_right_eq_some.mp hs
    obtain rfl := Option.some.inj hs
    have hout := h.outline
    rw [hrest] at hout
    exact ⟨hout.1 rfl, fun _ => rfl, fun b hb => (by cases hb), fun b hb => (by cases hb),
      fun b hb => ⟨(h.alive b hb).1, trivial⟩, h.starting⟩
  · cases hs

theorem inv_leave {asked : Bool} (h : Inv kind s) (hs : leaveLoop kind a asked s = some s') :
    Inv kind s' := by
  unfold leaveLoop at hs
  obtain ⟨hpc, hs⟩ := Option.ite_none_right_eq_some.mp hs
  -- wherever it goes, it was running
  have hset : ∀ p, some (s.set a p) = some s' → Inv kind s' := fun p hp =>
    Option.some.inj hp ▸ inv_set h (.inr hpc)
  cases kind <;> cases asked
  · exact hset _ (Option.ite_none_right_eq_some.mp hs).2
  · exact hset _ (Option.ite_none_right_eq_some.mp hs).2
  · exact hset _ hs
  · exact hset _ (Option.ite_none_right_eq_some.mp hs).2

theorem inv_cancelled (h : Inv kind s) (hs : endCancelled a s = some s') : Inv kind s' := by
  unfold endCancelled at hs
  obtain ⟨⟨hpc, -⟩, hs⟩ := Option.ite_none_right_eq_some.mp hs
  obtain rfl := Option.some.inj hs
  exact inv_set h (.inr hpc)

/-- A thread that needs the lock has its plugin in the list. -/
theorem inv_detach (h : Inv kind s) (hs : detach a s = some s') : Inv kind s' := by
  unfold detach at hs
  obtain ⟨⟨hpc, hfree⟩, hs⟩ := Option.ite_none_right_eq_some.mp hs
  obtain rfl := Option.some.inj hs
  have halloc := (h.alive a (.inr (.inr hpc))).1
  have hstart : s.starting ≠ some a := fun hsome => by
    have hcreated := h.starting a hsome
    rw [hpc] at hcreated
    cases hcreated
  refine ⟨outline_terminate (h.good hfree) halloc, fun hn => (by cases hn), fun b hb => ?_, fun b hb hne => ?_,
    fun b hb => ?_, fun b hb => ?_⟩
  · obtain rfl : a = b := Owner.thread.inj (Option.some.inj hb)
    exact List.suffix_rfl
  · obtain rfl : a = b := Owner.thread.inj (Option.some.inj hb)
    exact absurd rfl hne
  · have hba : b ≠ a := by
      rintro rfl
      rcases hb with hb | hb
      · exact hstart hb
      · rw [set_plugins_self] at hb
        simp at hb
    have halive : Alive s b := by rwa [Alive, set_plugins_ne _ hba] at hb
    exact ⟨(h.alive b halive).1, joinedFirst_terminate (Ne.symm hba)⟩
  · have hba : b ≠ a := by
      rintro rfl
      exact hstart hb
    rw [set_plugins_ne _ hba]
    exact h.starting b hb

theorem inv_step {e : Event} (h : Inv kind s) (hs : step kind s e = some s') : Inv kind s' := by
  cases e with
  | create a name => exact inv_create h hs
  | start => exact inv_start h hs
  | remove fn => exact inv_remove h hs
  | stopAll => exact inv_stop h hs
  | exec => exact inv_exec h hs
  | cancel => exact inv_cancel h hs
  | timeOut => exact inv_timeOut h hs
  | leave a asked => exact inv_leave h hs
  | cancelled a => exact inv_cancelled h hs
  | detach a => exact inv_detach h hs

variable (kind) in
theorem inv_init : Inv kind init where
  outline := ⟨rfl, fun i a h => by simp [init] at h, fun a h => absurd rfl h⟩
  free _ := rfl
  owner a h := by cases h
  gone a h := by cases h
  alive a h := by simp [Alive, init] at h
  starting a h := by cases h

end

/-- Of a section that the thread of a plugin is in: the statements that are left, executed, empty the slot the
plugin is in, or it is in none and the list stays; and the next statement leaves all other slots as they are. -/
structure ClearsOwn (s : State) (a : Addr) : Prop where
  clears : (∃ i : Nat, s.table.list[i]? = some (some a) ∧
      (s.rest.foldl Table.exec s.table).list = s.table.list.set i none) ∨
    some a ∉ s.table.list ∧ (s.rest.foldl Table.exec s.table).list = s.table.list
  keeps : ∀ st rest, s.rest = st :: rest → ∀ j : Nat, s.table.list[j]? ≠ some (some a) →
    (s.table.exec st).list[j]? = s.table.list[j]?

/-- The table is consistent when no one holds the lock, and the plugins that terminate leave it so. -/
structure Safe (s : State) : Prop where
  consistent : s.holder = none → Consistent s.table
  own : ∀ a, s.holder = some (.thread a) → ClearsOwn s a

theorem Inv.clearsOwn {kind : Kind} {s : State} {a : Addr} (h : Inv kind s)
    (ha : s.holder = some (.thread a)) : ClearsOwn s a := by
  by_cases hrest : s.rest = terminate a
  · have hout := h.outline
    rw [hrest] at hout
    obtain ⟨i, hi, hindex⟩ := hout.1
    have hlist : (s.table.exec (.clearOwn a)).list = s.table.list.set i none := by simp only [Table.exec, hindex]
    refine ⟨.inl ⟨i, hi, by rw [hrest]; exact hlist⟩, fun st rest hst j hj => ?_⟩
    have hji : i ≠ j := fun he => hj (he ▸ hi)
    obtain ⟨rfl, -⟩ := List.cons.inj (hst.symm.trans hrest)
    rw [hlist, List.getElem?_set_ne hji]
  · have hsuffix := h.owner a ha
    rw [terminate, List.suffix_cons_iff] at hsuffix
    have hsuffix := hsuffix.resolve_left hrest
    -- past its first statement the section does not touch the list
    have hkeeps : ∀ st ∈ s.rest, ∀ t : Table, (t.exec st).list = t.list := by
      intro st hst t
      have hmem := hsuffix.subset hst
      simp only [List.mem_cons, List.not_mem_nil, or_false] at hmem
      rcases hmem with rfl | rfl
      · rfl
      · rfl
    have hfold : (s.rest.foldl Table.exec s.table).list = s.table.list := by
      refine List.foldlRecOn s.rest Table.exec (motive := fun t => t.list = s.table.list) rfl fun t ht st hst => ?_
      rw [hkeeps st hst t, ht]
    refine ⟨.inr ⟨h.gone a ha hrest, hfold⟩, fun st rest hst j _ => ?_⟩
    rw [hkeeps st (hst ▸ List.mem_cons_self) s.table]

theorem Inv.safe {kind : Kind} {s : State} (h : Inv kind s) : Safe s where
  consistent hfree := (h.good hfree).consistent
  own _ ha := h.clearsOwn ha

/-- For both lists: whatever is added, removed and terminates, in any order. -/
theorem tables_consistent (kind : Kind) (es : List Event) :
    Runs.Always (step kind) Safe init es :=
  (Runs.always_of_invariant (fun _ _ _ => inv_step) (inv_init kind) es).mono fun _ h => h.safe

/-- A plugin that terminates while its removal waits for it stays in the list when the joins time out,
leaves it then, and its slot is used again. -/
example :
    let run : List Event := [.create 1 "input.a".toList, .exec, .exec, .exec, .exec, .start,
      .create 2 "input.b".toList, .exec, .exec, .exec, .exec, .start, .leave 1 false,
      .remove "a.cfg".toList, .exec, .cancel, .timeOut, .detach 1, .exec, .exec, .exec,
      .create 3 "input.a".toList, .exec, .exec, .exec]
    (Runs.run (step .input) init run).map (fun s => (s.table.list, s.table.listCnt, s.holder)) =
      some ([some 3, some 2], 2, none) := by
  decide +kernel

end PluginTables

end Hindsight
