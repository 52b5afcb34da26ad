import Hindsight.AnalysisReload
import Hindsight.Lib.Slots
import Hindsight.QueueWriter

/-!
# Hindsight.AnalyzeMessage

The analysis threads with their plugin lists. A thread goes through its list under `list_lock`: it offers the
message to each plugin, makes the timer event of a plugin that is due, and takes plugins off that terminate.
Meanwhile the other threads do the same with theirs, and the plugins inject messages into the one analysis
queue. An event is one call into or out of a sandbox, one `inject_message`, or the main thread adding or
removing a plugin. Samples and statistics are left out; the clock is any sequence of times.

* `Inv`: the lists, the open calls, the quotas and the timers agree.
* `injections_limited`: no call injects more than its limit, and the queue holds what was accepted.
* `timers_spaced`: whatever the clock does, two timer events of a plugin are an interval apart, and no timer
  that is due is passed over.
* `lists_consistent`: the lists are consistent, and in each pass each plugin has its turn once.
-/

namespace Hindsight

namespace AnalyzeMessage

open AnalysisReload (hsAnalysisDir hsExtLen)

/-- What an analysis plugin takes from its configuration. -/
structure Options where
  pmImLimit : Nat
  teImLimit : Nat
  tickerInterval : Int
  shutdownTerminate : Bool
  deriving DecidableEq, Repr

/-- `hs_analysis_plugin`; `id` numbers the instances and `thread` is the number of `p->at`. -/
structure Plugin where
  id : Nat
  name : List Char
  options : Options
  thread : Nat
  imLimit : Nat
  tickerExpires : Int
  deriving DecidableEq, Repr

/-- The calls into a sandbox in which it may inject: `lsb_heka_pm_analysis`, and `lsb_heka_timer_event`
without and with `shutdown`. -/
inductive Kind where
  | process
  | timer
  | shutdown
  deriving DecidableEq, Repr

/-- The limit a call starts with. -/
def Options.limit (o : Options) : Kind → Nat
  | .process => o.pmImLimit
  | .timer | .shutdown => o.teImLimit

/-- A call as it was made; `time` is `at->current_t`. -/
structure Call where
  plugin : Nat
  options : Options
  kind : Kind
  time : Int
  deriving DecidableEq, Repr

def Call.limit (c : Call) : Nat := c.options.limit c.kind

/-- Where a thread is: not in its list, at slot `i` in `analyze_message` or `shutdown_timer_event`, or in the
`k`-th call of all, made for slot `i`. -/
inductive Pc where
  | unlocked
  | slot (i : Nat)
  | shutdownSlot (i : Nat)
  | call (kind : Kind) (i k : Nat)
  | exited
  deriving DecidableEq, Repr

/-- `hs_analysis_thread`. Of the pass it is in or made last, `atLock` are the plugins that were listed when it
began and `offered` those that had their turn. -/
structure Thread where
  list : List (Option Plugin)
  listCnt : Int
  utilization : Nat
  maxMps : Nat
  currentT : Int
  msg : Bool
  pc : Pc
  atLock : List Nat
  offered : List Nat
  deriving DecidableEq, Repr

/-- All threads and the analysis queue. `calls` are the calls made so far, `injected` the messages that were
accepted, each with the number of its call, and `refused` the calls that were turned away once more. -/
structure State where
  threads : Nat → Thread
  queue : Output
  backpressure : Backpressure
  nextId : Nat
  sigterm : Bool
  calls : List Call
  injected : List (Nat × List UInt8)
  refused : List Nat

/-- The plugins of a list in the order of their slots. -/
def ids (list : List (Option Plugin)) : List Nat := (list.filterMap id).map Plugin.id

/-! ## The lists -/

/-- `add_plugin` into slot `idx`. -/
def Thread.addPlugin (t : Thread) (p : Plugin) (idx : Nat) : Thread :=
  { t with
    list := (Slots.grown t.list).set idx (some p)
    listCnt := t.listCnt + 1
    utilization := if 255 - t.utilization > 5 then t.utilization + 5 else 255
    maxMps := 0 }

/-- `remove_plugin`. -/
def Thread.removePlugin (t : Thread) (idx : Nat) : Thread :=
  { t with
    list := t.list.set idx none
    listCnt := t.listCnt - 1
    utilization := if t.utilization > 5 then t.utilization - 5 else 0
    maxMps := 0 }

/-- The test of `remove_from_analysis_plugins`. -/
def nameMatches (fn : List Char) (p : Plugin) : Bool :=
  AnalysisReload.nameMatches fn ⟨p.id, p.name⟩

/-- `remove_from_analysis_plugins`. -/
def Thread.removeFromAnalysisPlugins (t : Thread) (fn : List Char) : Thread :=
  match Slots.firstWith (nameMatches fn) t.list with
  | none => t
  | some (idx, _) => t.removePlugin idx

/-- `add_to_analysis_plugins`: the first free slot, or a new one. -/
def Thread.addToAnalysisPlugins (t : Thread) (p : Plugin) : Thread :=
  t.addPlugin p (Slots.firstFree t.list)

namespace State

def setThread (s : State) (tid : Nat) (t : Thread) : State :=
  { s with threads := Function.update s.threads tid t }

def setPc (s : State) (tid : Nat) (pc : Pc) : State :=
  s.setThread tid { s.threads tid with pc := pc }

def setPlugin (s : State) (tid i : Nat) (p : Plugin) : State :=
  s.setThread tid { s.threads tid with list := (s.threads tid).list.set i (some p) }

/-- `terminate_sandbox`: the process is asked to stop when the plugin is configured so. -/
def terminateSandbox (s : State) (tid i : Nat) (p : Plugin) : State :=
  { s.setThread tid ((s.threads tid).removePlugin i) with
    sigterm := s.sigterm || p.options.shutdownTerminate }

/-! ## A pass -/

/-- A call is made for slot `i`. -/
def makeCall (s : State) (tid : Nat) (kind : Kind) (i : Nat) (p : Plugin) : State :=
  { (s.setPlugin tid i { p with imLimit := p.options.limit kind }).setPc tid
      (.call kind i s.calls.length) with
    calls := s.calls ++ [⟨p.id, p.options, kind, (s.threads tid).currentT⟩] }

/-- The end of a round for slot `i`. -/
def finish (s : State) (tid i : Nat) (p : Plugin) (fatal : Bool) (next : Pc) : State :=
  (if fatal then s.terminateSandbox tid i p else s).setPc tid next

/-- From the result of the message to the end of the round. -/
def checkTimer (s : State) (tid i : Nat) (p : Plugin) (ret : Int) : State :=
  if ret ≤ 0 ∧ p.options.tickerInterval ≠ 0 ∧ (s.threads tid).currentT ≥ p.tickerExpires then
    s.makeCall tid .timer i p
  else s.finish tid i p (decide (0 < ret)) (.slot (i + 1))

/-- The plugin in slot `i` has its turn. -/
def offer (s : State) (tid i : Nat) (p : Plugin) (matched : Bool) : State :=
  let t := s.threads tid
  let s := s.setThread tid { t with offered := t.offered ++ [p.id] }
  if t.msg && matched then s.makeCall tid .process i p else s.checkTimer tid i p 0

/-- One round of `analyze_message` or `shutdown_timer_event`, up to the call. -/
def visit (s : State) (tid : Nat) (matched : Bool) : Option State :=
  let t := s.threads tid
  match t.pc with
  | .slot i =>
    match t.list[i]? with
    | none => some (s.setPc tid .unlocked)
    | some none => some (s.setPc tid (.slot (i + 1)))
    | some (some p) => some (s.offer tid i p matched)
  | .shutdownSlot i =>
    match t.list[i]? with
    | none => some (s.setPc tid .exited)
    | some none => some (s.setPc tid (.shutdownSlot (i + 1)))
    | some (some p) => some (s.makeCall tid .shutdown i p)
  | _ => none

/-- The sandbox returns. -/
def ret (s : State) (tid : Nat) (r : Int) : Option State :=
  let t := s.threads tid
  match t.pc with
  | .call kind i _ =>
    match t.list[i]? with
    | some (some p) =>
      match kind with
      | .process => some (s.checkTimer tid i p r)
      | .timer =>
        let p := { p with tickerExpires := t.currentT + p.options.tickerInterval }
        some ((s.setPlugin tid i p).finish tid i p (decide (0 < r)) (.slot (i + 1)))
      | .shutdown => some (s.finish tid i p (decide (r ≠ 0)) (.shutdownSlot (i + 1)))
    | _ => none
  | _ => none

/-- `inject_message` of the plugin the thread is in a call of. Nothing can be written for an empty message,
which ends the process. -/
def injectMessage (cfg : HsConfig) (s : State) (tid : Nat) (pb : List UInt8) (env : InjectEnv) :
    Option State :=
  let t := s.threads tid
  match t.pc with
  | .call _ i k =>
    match t.list[i]? with
    | some (some p) =>
      if p.imLimit = 0 then some { s with refused := s.refused ++ [k] }
      else if pb = [] then none
      else
        let r := injectFrame cfg Varint.encode env s.queue s.backpressure pb
        some { s.setPlugin tid i { p with imLimit := p.imLimit - 1 } with
          queue := r.1
          backpressure := r.2.1
          injected := s.injected ++ [(k, pb)] }
    | _ => none
  | _ => none

end State

/-- `expires` is the time `create_analysis_plugin` sets, and `thread` the option of the configuration. -/
inductive Event where
  | add (name : List Char) (options : Options) (thread : Nat) (expires : Int)
  | remove (tid : Nat) (fn : List Char)
  | analyze (tid : Nat) (msg : Bool) (now : Int)
  | shutdown (tid : Nat)
  | visit (tid : Nat) (matched : Bool)
  | ret (tid : Nat) (r : Int)
  | inject (tid : Nat) (pb : List UInt8) (env : InjectEnv)
  | spill (n : Nat)

/-- No one is in the list of the thread. -/
def Thread.Free (t : Thread) : Prop := t.pc = .unlocked ∨ t.pc = .exited

instance (t : Thread) : Decidable t.Free := inferInstanceAs (Decidable (_ ∨ _))

/-- The main thread loads a plugin on the thread of its configuration. -/
def addPlugin (analysisThreads : Nat) (s : State) (name : List Char) (options : Options) (thread : Nat)
    (expires : Int) : Option State :=
  let tid := thread % analysisThreads
  let t := s.threads tid
  if t.Free then
    some { s.setThread tid (t.addToAnalysisPlugins ⟨s.nextId, name, options, tid, 0, expires⟩) with
      nextId := s.nextId + 1 }
  else none

/-- The thread takes its lock for a pass. -/
def lock (s : State) (tid : Nat) (msg : Bool) (now : Int) : Option State :=
  let t := s.threads tid
  if t.pc = .unlocked then
    some (s.setThread tid { t with
      currentT := now, msg := msg, pc := .slot 0, atLock := ids t.list, offered := [] })
  else none

def step (cfg : HsConfig) (analysisThreads : Nat) (s : State) : Event → Option State
  | .add name options thread expires => addPlugin analysisThreads s name options thread expires
  | .remove tid fn =>
    if (s.threads tid).Free then
      some (s.setThread tid ((s.threads tid).removeFromAnalysisPlugins fn))
    else none
  | .analyze tid msg now => lock s tid msg now
  | .shutdown tid =>
    if (s.threads tid).pc = .unlocked then
      some (s.setPc tid (.shutdownSlot 0))
    else none
  | .visit tid matched => s.visit tid matched
  | .ret tid r => s.ret tid r
  | .inject tid pb env => s.injectMessage cfg tid pb env
  | .spill n => some { s with queue := s.queue.spill n }

/-- `hs_init_analysis_plugins` with the analysis queue in `d`. -/
def init (d : Dir) : State where
  threads _ := ⟨[], 0, 0, 0, 0, false, .unlocked, [], []⟩
  queue := hsInitOutput d
  backpressure := ⟨0, false⟩
  nextId := 0
  sigterm := false
  calls := []
  injected := []
  refused := []

/-! ## What an event does -/

/-- The plugin has its turn in slot `i`. -/
def State.turn (s : State) (tid : Nat) (p : Plugin) : State :=
  s.setThread tid { s.threads tid with offered := (s.threads tid).offered ++ [p.id] }

/-- Plugin `p` is in slot `i` of thread `tid`. -/
def State.At (s : State) (tid i : Nat) (p : Plugin) : Prop := (s.threads tid).list[i]? = some (some p)

/-- The moves of a thread between calls. -/
inductive Moves (t : Thread) : Pc → Prop where
  | done {i : Nat} : t.pc = .slot i → t.list[i]? = none → Moves t .unlocked
  | next {i : Nat} : t.pc = .slot i → t.list[i]? = some none → Moves t (.slot (i + 1))
  | shutdown : t.pc = .unlocked → Moves t (.shutdownSlot 0)
  | shutdownNext {i : Nat} : t.pc = .shutdownSlot i → Moves t (.shutdownSlot (i + 1))
  | exit {i : Nat} : t.pc = .shutdownSlot i → Moves t .exited

/-- The timer of the plugin is due after a result that is not fatal. -/
def Due (t : Thread) (p : Plugin) : Prop :=
  p.options.tickerInterval ≠ 0 ∧ t.currentT ≥ p.tickerExpires

/-- All that can happen. -/
inductive Act (cfg : HsConfig) (s : State) : State → Prop where
  | stay : Act cfg s s
  | add (tid : Nat) (p : Plugin) : (s.threads tid).Free → p.id = s.nextId → p.thread = tid →
      Act cfg s { s.setThread tid ((s.threads tid).addToAnalysisPlugins p) with nextId := s.nextId + 1 }
  | remove (tid i : Nat) (p : Plugin) : (s.threads tid).Free → s.At tid i p →
      Act cfg s (s.setThread tid ((s.threads tid).removePlugin i))
  | lock (tid : Nat) (msg : Bool) (now : Int) : (s.threads tid).pc = .unlocked →
      Act cfg s (s.setThread tid { s.threads tid with
        currentT := now, msg := msg, pc := .slot 0, atLock := ids (s.threads tid).list, offered := [] })
  | move (tid : Nat) (pc : Pc) : Moves (s.threads tid) pc → Act cfg s (s.setPc tid pc)
  | process (tid i : Nat) (p : Plugin) : (s.threads tid).pc = .slot i → s.At tid i p →
      Act cfg s ((s.turn tid p).makeCall tid .process i p)
  | timer (tid i : Nat) (p : Plugin) : (s.threads tid).pc = .slot i → s.At tid i p →
      Due (s.threads tid) p → Act cfg s ((s.turn tid p).makeCall tid .timer i p)
  | pass (tid i : Nat) (p : Plugin) : (s.threads tid).pc = .slot i → s.At tid i p →
      ¬Due (s.threads tid) p → Act cfg s ((s.turn tid p).finish tid i p false (.slot (i + 1)))
  | processed (tid i k : Nat) (p : Plugin) : (s.threads tid).pc = .call .process i k → s.At tid i p →
      Due (s.threads tid) p → Act cfg s (s.makeCall tid .timer i p)
  | passed (tid i k : Nat) (p : Plugin) (fatal : Bool) : (s.threads tid).pc = .call .process i k →
      s.At tid i p → (fatal = false → ¬Due (s.threads tid) p) →
      Act cfg s (s.finish tid i p fatal (.slot (i + 1)))
  | timed (tid i k : Nat) (p p' : Plugin) (fatal : Bool) : (s.threads tid).pc = .call .timer i k →
      s.At tid i p →
      p' = { p with tickerExpires := (s.threads tid).currentT + p.options.tickerInterval } →
      Act cfg s ((s.setPlugin tid i p').finish tid i p' fatal (.slot (i + 1)))
  | shutdown (tid i : Nat) (p : Plugin) : (s.threads tid).pc = .shutdownSlot i → s.At tid i p →
      Act cfg s (s.makeCall tid .shutdown i p)
  | shutDown (tid i k : Nat) (p : Plugin) (fatal : Bool) : (s.threads tid).pc = .call .shutdown i k →
      s.At tid i p → Act cfg s (s.finish tid i p fatal (.shutdownSlot (i + 1)))
  | refuse (tid i k : Nat) (kind : Kind) (p : Plugin) : (s.threads tid).pc = .call kind i k →
      s.At tid i p → p.imLimit = 0 → Act cfg s { s with refused := s.refused ++ [k] }
  | inject (tid i k : Nat) (kind : Kind) (p : Plugin) (pb : List UInt8) (bp : Backpressure) :
      (s.threads tid).pc = .call kind i k → s.At tid i p → p.imLimit ≠ 0 → pb ≠ [] →
      Act cfg s { s.setPlugin tid i { p with imLimit := p.imLimit - 1 } with
        queue := appendFrame cfg Varint.encode s.queue pb
        backpressure := bp
        injected := s.injected ++ [(k, pb)] }
  | spill (n : Nat) : Act cfg s { s with queue := s.queue.spill n }

section

variable {s : State} {tid i : Nat} {p : Plugin}

@[simp] theorem threads_setThread (t : Thread) : (s.setThread tid t).threads tid = t :=
  Function.update_self ..

theorem threads_setThread_ne {tid' : Nat} (h : tid' ≠ tid) (t : Thread) :
    (s.setThread tid t).threads tid' = s.threads tid' := Function.update_of_ne h ..

@[simp] theorem threads_setPc (pc : Pc) :
    (s.setPc tid pc).threads tid = { s.threads tid with pc := pc } := threads_setThread _

@[simp] theorem threads_setPlugin : (s.setPlugin tid i p).threads tid =
    { s.threads tid with list := (s.threads tid).list.set i (some p) } := threads_setThread _

theorem threads_turn_ne {tid' : Nat} (h : tid' ≠ tid) : (s.turn tid p).threads tid' = s.threads tid' :=
  threads_setThread_ne h _

theorem threads_makeCall (kind : Kind) : (s.makeCall tid kind i p).threads tid =
    { s.threads tid with
      list := (s.threads tid).list.set i (some { p with imLimit := p.options.limit kind })
      pc := .call kind i s.calls.length } := by
  simp [State.makeCall]

theorem threads_makeCall_ne {kind : Kind} {tid' : Nat} (h : tid' ≠ tid) :
    (s.makeCall tid kind i p).threads tid' = s.threads tid' :=
  (threads_setThread_ne h _).trans (threads_setThread_ne h _)

theorem threads_finish (fatal : Bool) (pc : Pc) : (s.finish tid i p fatal pc).threads tid =
    { if fatal then (s.threads tid).removePlugin i else s.threads tid with pc := pc } := by
  cases fatal <;> simp [State.finish, State.terminateSandbox, State.setPc, State.setThread]

theorem threads_finish_ne {fatal : Bool} {pc : Pc} {tid' : Nat} (h : tid' ≠ tid) :
    (s.finish tid i p fatal pc).threads tid' = s.threads tid' := by
  unfold State.finish
  cases fatal with
  | false => exact threads_setThread_ne h _
  | true => exact (threads_setThread_ne h _).trans (threads_setThread_ne h _)

@[simp] theorem threads_turn : (s.turn tid p).threads tid =
    { s.threads tid with offered := (s.threads tid).offered ++ [p.id] } := threads_setThread _

end

section

variable {cfg : HsConfig} {n : Nat} {s s' : State} {tid : Nat}

theorem act_checkTimer_slot {i : Nat} {p : Plugin} (hpc : (s.threads tid).pc = .slot i)
    (hp : s.At tid i p) : Act cfg s ((s.turn tid p).checkTimer tid i p 0) := by
  unfold State.checkTimer
  rw [threads_turn]
  split
  · rename_i hdue
    exact .timer tid i p hpc hp hdue.2
  · rename_i hdue
    exact .pass tid i p hpc hp fun h => hdue ⟨le_rfl, h⟩

theorem act_visit {matched : Bool} (h : s.visit tid matched = some s') : Act cfg s s' := by
  unfold State.visit at h
  simp only at h
  split at h
  · rename_i i hpc
    split at h
    · cases h
      exact .move tid _ (.done hpc ‹_›)
    · cases h
      exact .move tid _ (.next hpc ‹_›)
    · rename_i p hp
      cases h
      unfold State.offer
      simp only
      split
      · exact .process tid i p hpc hp
      · exact act_checkTimer_slot hpc hp
  · rename_i i hpc
    split at h
    · cases h
      exact .move tid _ (.exit hpc)
    · cases h
      exact .move tid _ (.shutdownNext hpc)
    · rename_i p hp
      cases h
      exact .shutdown tid i p hpc hp
  · cases h

theorem act_ret {r : Int} (h : s.ret tid r = some s') : Act cfg s s' := by
  unfold State.ret at h
  simp only at h
  split at h
  · rename_i kind i k hpc
    split at h
    · rename_i p hp
      cases kind with
      | process =>
        cases h
        unfold State.checkTimer
        split
        · rename_i hdue
          exact .processed tid i k p hpc hp hdue.2
        · rename_i hdue
          refine .passed tid i k p _ hpc hp fun hret h => hdue ⟨?_, h⟩
          simpa using hret
      | timer =>
        cases h
        exact .timed tid i k p _ _ hpc hp rfl
      | shutdown =>
        cases h
        exact .shutDown tid i k p _ hpc hp
    · cases h
  · cases h

theorem act_injectMessage {pb : List UInt8} {env : InjectEnv}
    (h : s.injectMessage cfg tid pb env = some s') : Act cfg s s' := by
  unfold State.injectMessage at h
  simp only at h
  split at h
  · rename_i kind i k hpc
    split at h
    · rename_i p hp
      split at h
      · rename_i hlimit
        cases h
        exact .refuse tid i k kind p hpc hp hlimit
      · rename_i hlimit
        split at h
        · cases h
        · rename_i hpb
          cases h
          exact .inject tid i k kind p pb _ hpc hp hlimit hpb
    · cases h
  · cases h

/-- Every step is one of these. -/
theorem act_of_step {e : Event} (h : step cfg n s e = some s') : Act cfg s s' := by
  cases e with
  | add name options thread expires =>
    simp only [step, addPlugin, Option.ite_none_right_eq_some, Option.some.injEq] at h
    obtain ⟨hfree, rfl⟩ := h
    exact .add _ _ hfree rfl rfl
  | remove tid fn =>
    simp only [step, Option.ite_none_right_eq_some, Option.some.injEq] at h
    obtain ⟨hfree, rfl⟩ := h
    unfold Thread.removeFromAnalysisPlugins
    split
    · rw [State.setThread, Function.update_eq_self]
      exact .stay
    · rename_i idx p hfirst
      exact .remove tid idx p hfree (Slots.firstWith_some hfirst).1
  | analyze tid msg now =>
    simp only [step, lock, Option.ite_none_right_eq_some, Option.some.injEq] at h
    obtain ⟨hpc, rfl⟩ := h
    exact .lock tid msg now hpc
  | shutdown tid =>
    simp only [step, Option.ite_none_right_eq_some, Option.some.injEq] at h
    obtain ⟨hpc, rfl⟩ := h
    exact .move tid _ (.shutdown hpc)
  | visit tid matched => exact act_visit h
  | ret tid r => exact act_ret h
  | inject tid pb env => exact act_injectMessage h
  | spill n =>
    cases h
    exact .spill n

end

/-! ## The invariant -/

/-- How many messages the `k`-th call injected. -/
def accepted (injected : List (Nat × List UInt8)) (k : Nat) : Nat := injected.countP (·.1 = k)

/-- The counts are those of the occupied slots, and each plugin is on the thread it was added to, in one
slot. -/
structure Lists (s : State) : Prop where
  count : ∀ tid, (s.threads tid).listCnt = Slots.occupied (s.threads tid).list
  home : ∀ tid i p, s.At tid i p → p.thread = tid ∧ p.id < s.nextId
  unique : ∀ tid i p tid' j q, s.At tid i p → s.At tid' j q → p.id = q.id → tid = tid' ∧ i = j

/-- The slots behind the thread in `analyze_message`. -/
def Pc.done : Pc → Nat
  | .slot i | .call .process i _ | .call .timer i _ => i
  | _ => 0

/-- What is left of the pass. -/
def Thread.ahead (t : Thread) : List Nat :=
  match t.pc with
  | .slot i => ids (t.list.drop i)
  | .call .process i _ | .call .timer i _ => ids (t.list.drop (i + 1))
  | _ => []

/-- A thread among the calls made: its open call is one of its plugin, with what is left of its limit; the
timer of each plugin is an interval past its last timer event; and no plugin behind the thread is due. -/
structure Thread.Ok (calls : List Call) (injected : List (Nat × List UInt8)) (t : Thread) : Prop where
  call : ∀ kind i k, t.pc = .call kind i k → ∃ p, t.list[i]? = some (some p) ∧
    calls[k]? = some ⟨p.id, p.options, kind, t.currentT⟩ ∧
    accepted injected k + p.imLimit = p.options.limit kind ∧
    (kind = .timer → p.tickerExpires ≤ t.currentT)
  timer : ∀ i p, t.list[i]? = some (some p) → ∀ (k : Nat) c, calls[k]? = some c → c.plugin = p.id →
    c.options = p.options ∧ (c.kind = .timer → 0 ≤ c.options.tickerInterval →
      t.pc ≠ .call .timer i k → c.time + c.options.tickerInterval ≤ p.tickerExpires)
  due : ∀ j p, j < t.pc.done → t.list[j]? = some (some p) →
    p.options.tickerInterval ≤ 0 ∨ t.currentT < p.tickerExpires

/-- The plugins of the pass had their turn or are ahead. -/
def Turns (s : State) : Prop :=
  ∀ tid, (s.threads tid).offered ++ (s.threads tid).ahead = (s.threads tid).atLock

/-- The timer events of a plugin are an interval apart. -/
def Spaced (calls : List Call) : Prop :=
  ∀ (j k : Nat) c c', j < k → calls[j]? = some c → calls[k]? = some c' → c.kind = .timer → c'.kind = .timer →
    c.plugin = c'.plugin → 0 ≤ c.options.tickerInterval → c.time + c.options.tickerInterval ≤ c'.time

structure Inv (cfg : HsConfig) (d : Dir) (s : State) : Prop where
  lists : Lists s
  threads : ∀ tid, (s.threads tid).Ok s.calls s.injected
  quota : ∀ (k : Nat) c, s.calls[k]? = some c → accepted s.injected k ≤ c.limit
  tags : ∀ x ∈ s.injected, x.1 < s.calls.length
  refused : ∀ k ∈ s.refused, ∃ c, s.calls[k]? = some c ∧ accepted s.injected k = c.limit
  known : ∀ c ∈ s.calls, c.plugin < s.nextId
  spaced : Spaced s.calls
  interval : ∀ c ∈ s.calls, c.kind = .timer → c.options.tickerInterval ≠ 0
  queue : ∃ es, Runs.run (QueueWriter.step cfg) (hsInitOutput d) es = some s.queue ∧
    QueueWriter.injected es = s.injected.map Prod.snd

/-! ## The lists -/

section

variable {s : State} {tid i : Nat} {p : Plugin}

/-- Only the lists, the counts and the next number matter to `Lists`. -/
theorem Lists.congr {s' : State} (h : Lists s) (hid : s'.nextId = s.nextId)
    (hlist : ∀ tid, (s'.threads tid).list = (s.threads tid).list)
    (hcnt : ∀ tid, (s'.threads tid).listCnt = (s.threads tid).listCnt) : Lists s' := by
  refine ⟨fun tid => ?_, fun tid i p hp => ?_, fun tid i p tid' j q hp hq heq => ?_⟩
  · rw [hcnt, hlist]
    exact h.count tid
  · rw [State.At, hlist] at hp
    rw [hid]
    exact h.home tid i p hp
  · rw [State.At, hlist] at hp hq
    exact h.unique tid i p tid' j q hp hq heq

/-- A thread whose list stays. -/
theorem Lists.setThread (h : Lists s) {t : Thread} (hlist : t.list = (s.threads tid).list)
    (hcnt : t.listCnt = (s.threads tid).listCnt) : Lists (s.setThread tid t) := by
  refine h.congr rfl (fun tid' => ?_) fun tid' => ?_
  · by_cases htid : tid' = tid
    · rw [htid, threads_setThread, hlist]
    · rw [threads_setThread_ne htid]
  · by_cases htid : tid' = tid
    · rw [htid, threads_setThread, hcnt]
    · rw [threads_setThread_ne htid]

/-- What the slots hold when the list of a thread is replaced. -/
theorem at_setThread {t : Thread} {tid' j : Nat} {q : Plugin} (h : (s.setThread tid t).At tid' j q) :
    tid' = tid ∧ t.list[j]? = some (some q) ∨ tid' ≠ tid ∧ s.At tid' j q := by
  by_cases htid : tid' = tid
  · subst htid
    rw [State.At, threads_setThread] at h
    exact .inl ⟨rfl, h⟩
  · rw [State.At, threads_setThread_ne htid] at h
    exact .inr ⟨htid, h⟩

theorem at_setPlugin {p' : Plugin} {tid' j : Nat} {q : Plugin} (h : (s.setPlugin tid i p').At tid' j q) :
    tid' = tid ∧ j = i ∧ q = p' ∨ (tid' = tid → j ≠ i) ∧ s.At tid' j q := by
  rcases at_setThread h with ⟨rfl, hq⟩ | ⟨htid, hq⟩
  · by_cases hj : j = i
    · subst hj
      obtain ⟨hlt, hq⟩ := List.getElem?_eq_some_iff.mp hq
      rw [List.getElem_set_self] at hq
      exact .inl ⟨rfl, rfl, (Option.some.inj hq).symm⟩
    · exact .inr ⟨fun _ => hj, by rwa [List.getElem?_set_ne (Ne.symm hj)] at hq⟩
  · exact .inr ⟨fun h => absurd h htid, hq⟩

/-- A plugin changes in its slot. -/
theorem Lists.setPlugin (h : Lists s) (hp : s.At tid i p) (p' : Plugin) (hid : p'.id = p.id)
    (hthread : p'.thread = p.thread) : Lists (s.setPlugin tid i p') := by
  have hback : ∀ {tid' j q}, (s.setPlugin tid i p').At tid' j q →
      ∃ q', s.At tid' j q' ∧ q'.id = q.id ∧ q'.thread = q.thread := by
    intro tid' j q hq
    rcases at_setPlugin hq with ⟨rfl, rfl, rfl⟩ | ⟨-, hq⟩
    · exact ⟨p, hp, hid.symm, hthread.symm⟩
    · exact ⟨q, hq, rfl, rfl⟩
  refine ⟨fun tid' => ?_, fun tid' j q hq => ?_, fun tid' j q tid'' k r hq hr heq => ?_⟩
  · by_cases htid : tid' = tid
    · subst htid
      rw [threads_setPlugin]
      exact (h.count tid').trans (congrArg _ (Slots.occupied_replace hp).symm)
    · rw [State.setPlugin, threads_setThread_ne htid]
      exact h.count tid'
  · obtain ⟨q', hq', hqid, hqthread⟩ := hback hq
    rw [← hqid, ← hqthread]
    exact h.home tid' j q' hq'
  · obtain ⟨q', hq', hqid, -⟩ := hback hq
    obtain ⟨r', hr', hrid, -⟩ := hback hr
    exact h.unique tid' j q' tid'' k r' hq' hr' (by rw [hqid, hrid, heq])

/-- A plugin leaves its slot. -/
theorem Lists.removePlugin (h : Lists s) (hp : s.At tid i p) :
    Lists (s.setThread tid ((s.threads tid).removePlugin i)) := by
  have hback : ∀ {tid' j q}, (s.setThread tid ((s.threads tid).removePlugin i)).At tid' j q →
      s.At tid' j q := by
    intro tid' j q hq
    rcases at_setThread hq with ⟨rfl, hq⟩ | ⟨-, hq⟩
    · exact (Slots.getElem?_clear.mp hq).2
    · exact hq
  refine ⟨fun tid' => ?_, fun tid' j q hq => h.home tid' j q (hback hq),
    fun tid' j q tid'' k r hq hr heq => h.unique tid' j q tid'' k r (hback hq) (hback hr) heq⟩
  by_cases htid : tid' = tid
  · subst htid
    rw [threads_setThread]
    have hcount := h.count tid'
    have hclear := Slots.occupied_clear hp
    change (s.threads tid').listCnt - 1 = (Slots.occupied ((s.threads tid').list.set i none) : Int)
    omega
  · rw [threads_setThread_ne htid]
    exact h.count tid'

/-- A new plugin goes into a free slot. -/
theorem Lists.add (h : Lists s) (hp : p.id = s.nextId) (hthread : p.thread = tid) :
    Lists { s.setThread tid ((s.threads tid).addToAnalysisPlugins p) with nextId := s.nextId + 1 } := by
  have hfree : (Slots.grown (s.threads tid).list)[Slots.firstFree (s.threads tid).list]? = some none :=
    Slots.getElem?_firstFree
  have hback : ∀ {tid' j q}, (s.setThread tid ((s.threads tid).addToAnalysisPlugins p)).At tid' j q →
      tid' = tid ∧ j = Slots.firstFree (s.threads tid).list ∧ q = p ∨ s.At tid' j q := by
    intro tid' j q hq
    rcases at_setThread hq with ⟨rfl, hq⟩ | ⟨-, hq⟩
    · rcases (Slots.getElem?_fill hfree).mp hq with ⟨hj, hq⟩ | hq
      · exact .inl ⟨rfl, hj, hq⟩
      · exact .inr (Slots.getElem?_grown.mp hq)
    · exact .inr hq
  refine ⟨fun tid' => ?_, fun tid' j q hq => ?_, fun tid' j q tid'' k r hq hr heq => ?_⟩
  · by_cases htid : tid' = tid
    · subst htid
      have hcount := h.count tid'
      have hfill := Slots.occupied_fill hfree (a := p)
      rw [Slots.occupied_grown] at hfill
      change ((s.setThread tid' ((s.threads tid').addToAnalysisPlugins p)).threads tid').listCnt =
        Slots.occupied ((s.setThread tid' ((s.threads tid').addToAnalysisPlugins p)).threads tid').list
      rw [threads_setThread]
      change (s.threads tid').listCnt + 1 = (Slots.occupied ((Slots.grown (s.threads tid').list).set
        (Slots.firstFree (s.threads tid').list) (some p)) : Int)
      omega
    · exact (congrArg _ (threads_setThread_ne htid _)).trans ((h.count tid').trans
        (congrArg (fun t : Thread => (Slots.occupied t.list : Int)) (threads_setThread_ne htid _).symm))
  · rcases hback hq with ⟨rfl, -, rfl⟩ | hq
    · exact ⟨hthread, hp ▸ Nat.lt_succ_self _⟩
    · exact ⟨(h.home tid' j q hq).1, Nat.lt_succ_of_lt (h.home tid' j q hq).2⟩
  · rcases hback hq with ⟨htid, hj, hqp⟩ | hq' <;> rcases hback hr with ⟨htid', hk, hrp⟩ | hr'
    · exact ⟨htid.trans htid'.symm, hj.trans hk.symm⟩
    · have hlt := (h.home tid'' k r hr').2
      rw [← heq, hqp, hp] at hlt
      exact absurd hlt (Nat.lt_irrefl _)
    · have hlt := (h.home tid' j q hq').2
      rw [heq, hrp, hp] at hlt
      exact absurd hlt (Nat.lt_irrefl _)
    · exact h.unique tid' j q tid'' k r hq' hr' heq

end

/-! ### What the parts of a pass do to the lists -/

section

variable {cfg : HsConfig} {s s' : State} {tid i : Nat} {p : Plugin}

theorem Lists.setPc (h : Lists s) (pc : Pc) : Lists (s.setPc tid pc) := h.setThread rfl rfl

theorem Lists.turn (h : Lists s) : Lists (s.turn tid p) := h.setThread rfl rfl

theorem at_turn {tid' j : Nat} {q : Plugin} : (s.turn tid p).At tid' j q ↔ s.At tid' j q := by
  by_cases htid : tid' = tid
  · subst htid
    rw [State.At, threads_turn]
    exact Iff.rfl
  · rw [State.At, State.turn, threads_setThread_ne htid]
    exact Iff.rfl

theorem Lists.makeCall (h : Lists s) (hp : s.At tid i p) (kind : Kind) :
    Lists (s.makeCall tid kind i p) := by
  have hset := h.setPlugin hp { p with imLimit := p.options.limit kind } rfl rfl
  exact (hset.setPc (.call kind i s.calls.length)).congr rfl (fun _ => rfl) fun _ => rfl

theorem Lists.finish (h : Lists s) (hp : s.At tid i p) (fatal : Bool) (pc : Pc) :
    Lists (s.finish tid i p fatal pc) := by
  unfold State.finish
  cases fatal with
  | false => exact h.setPc pc
  | true =>
    have hremove : Lists (s.terminateSandbox tid i p) :=
      (h.removePlugin hp).congr rfl (fun _ => rfl) fun _ => rfl
    exact hremove.setPc pc

theorem at_setPlugin_self (hp : s.At tid i p) (p' : Plugin) : (s.setPlugin tid i p').At tid i p' := by
  have hlt := (List.getElem?_eq_some_iff.mp hp).1
  rw [State.At, threads_setPlugin]
  exact List.getElem?_set_self hlt

theorem act_lists (h : Lists s) (ha : Act cfg s s') : Lists s' := by
  cases ha with
  | stay => exact h
  | add tid p hfree hid hthread => exact h.add hid hthread
  | remove tid i p hfree hp => exact h.removePlugin hp
  | lock tid msg now hpc => exact h.setThread rfl rfl
  | move tid pc hmove => exact h.setPc pc
  | process tid i p hpc hp => exact h.turn.makeCall (at_turn.mpr hp) _
  | timer tid i p hpc hp hdue => exact h.turn.makeCall (at_turn.mpr hp) _
  | pass tid i p hpc hp hdue => exact h.turn.finish (at_turn.mpr hp) _ _
  | processed tid i k p hpc hp hdue => exact h.makeCall hp _
  | passed tid i k p fatal hpc hp hdue => exact h.finish hp _ _
  | timed tid i k p p' fatal hpc hp hp' =>
    have hset := h.setPlugin hp p' (by rw [hp']) (by rw [hp'])
    exact hset.finish (at_setPlugin_self hp p') fatal _
  | shutdown tid i p hpc hp => exact h.makeCall hp _
  | shutDown tid i k p fatal hpc hp => exact h.finish hp _ _
  | refuse tid i k kind p hpc hp hlimit => exact h.congr rfl (fun _ => rfl) fun _ => rfl
  | inject tid i k kind p pb bp hpc hp hlimit hpb =>
    have hset := h.setPlugin hp { p with imLimit := p.imLimit - 1 } rfl rfl
    exact hset.congr rfl (fun _ => rfl) fun _ => rfl
  | spill n => exact h.congr rfl (fun _ => rfl) fun _ => rfl

end

/-! ## The turns -/

section

variable {cfg : HsConfig} {s s' : State} {tid i : Nat} {p : Plugin}

theorem ids_cons (o : Option Plugin) (list : List (Option Plugin)) :
    ids (o :: list) = (o.map Plugin.id).toList ++ ids list := by
  cases o <;> rfl

theorem ids_drop {list : List (Option Plugin)} {o : Option Plugin} (h : list[i]? = some o) :
    ids (list.drop i) = (o.map Plugin.id).toList ++ ids (list.drop (i + 1)) := by
  obtain ⟨hlt, rfl⟩ := List.getElem?_eq_some_iff.mp h
  rw [List.drop_eq_getElem_cons hlt, ids_cons]

/-- What is written into slot `i` is behind a thread that goes on with the next. -/
theorem drop_set_succ (list : List (Option Plugin)) (o : Option Plugin) :
    (list.set i o).drop (i + 1) = list.drop (i + 1) :=
  List.drop_set_of_lt (Nat.lt_succ_self i)

theorem Turns.setThread (h : Turns s) {t : Thread} (ht : t.offered ++ t.ahead = t.atLock) :
    Turns (s.setThread tid t) := by
  intro tid'
  by_cases htid : tid' = tid
  · subst htid
    rw [threads_setThread]
    exact ht
  · rw [threads_setThread_ne htid]
    exact h tid'

/-- The lists change only where no one is in them. -/
theorem turns_free (h : Turns s) (hfree : (s.threads tid).Free) {t : Thread}
    (hpc : t.pc = (s.threads tid).pc) (hoffered : t.offered = (s.threads tid).offered)
    (hlock : t.atLock = (s.threads tid).atLock) : t.offered ++ t.ahead = t.atLock := by
  have ht := h tid
  rw [Thread.ahead] at ht ⊢
  rw [hpc, hoffered, hlock]
  rcases hfree with hfree | hfree
  · rw [hfree] at ht ⊢
    exact ht
  · rw [hfree] at ht ⊢
    exact ht

theorem Thread.ahead_slot {t : Thread} (h : t.pc = .slot i) : t.ahead = ids (t.list.drop i) := by
  rw [Thread.ahead, h]

theorem turns_move (h : Turns s) {pc : Pc} (hmove : Moves (s.threads tid) pc) :
    let t : Thread := { s.threads tid with pc := pc }
    t.offered ++ t.ahead = t.atLock := by
  have ht := h tid
  rw [Thread.ahead] at ht
  cases hmove with
  | done hpc hnone =>
    rw [hpc] at ht
    simp only [List.drop_eq_nil_of_le (List.getElem?_eq_none_iff.mp hnone)] at ht
    exact ht
  | next hpc hnone =>
    rw [hpc] at ht
    simp only [ids_drop hnone] at ht
    exact ht
  | shutdown hpc | shutdownNext hpc | exit hpc =>
    rw [hpc] at ht
    exact ht

/-- The turns up to the plugin in slot `i`, that one included. -/
theorem turn_slot (h : Turns s) (hpc : (s.threads tid).pc = .slot i) (hp : s.At tid i p) :
    ((s.threads tid).offered ++ [p.id]) ++ ids ((s.threads tid).list.drop (i + 1)) =
      (s.threads tid).atLock := by
  rw [← h tid, Thread.ahead_slot hpc, ids_drop hp, List.append_assoc]
  rfl

theorem turn_call (h : Turns s) {kind : Kind} {k : Nat} (hpc : (s.threads tid).pc = .call kind i k)
    (hkind : kind ≠ .shutdown) :
    (s.threads tid).offered ++ ids ((s.threads tid).list.drop (i + 1)) = (s.threads tid).atLock := by
  rw [← h tid]
  cases kind with
  | shutdown => exact absurd rfl hkind
  | process | timer => rw [Thread.ahead, hpc]

/-- A call from a pass is made for the last that had its turn. -/
theorem turns_makeCall (h : ∀ tid' ≠ tid, (s.threads tid').offered ++ (s.threads tid').ahead =
      (s.threads tid').atLock) {kind : Kind} (hkind : kind ≠ .shutdown)
    (ht : (s.threads tid).offered ++ ids ((s.threads tid).list.drop (i + 1)) = (s.threads tid).atLock) :
    Turns (s.makeCall tid kind i p) := by
  intro tid'
  by_cases htid : tid' = tid
  · subst htid
    rw [threads_makeCall, ← ht]
    cases kind with
    | shutdown => exact absurd rfl hkind
    | process | timer =>
      rw [Thread.ahead]
      simp only [drop_set_succ]
  · rw [threads_makeCall_ne htid]
    exact h tid' htid

theorem turns_finish (h : ∀ tid' ≠ tid, (s.threads tid').offered ++ (s.threads tid').ahead =
      (s.threads tid').atLock) (fatal : Bool)
    (ht : (s.threads tid).offered ++ ids ((s.threads tid).list.drop (i + 1)) = (s.threads tid).atLock) :
    Turns (s.finish tid i p fatal (.slot (i + 1))) := by
  intro tid'
  by_cases htid : tid' = tid
  · subst htid
    rw [threads_finish]
    cases fatal with
    | false => exact ht
    | true =>
      change (s.threads tid').offered ++ ids (((s.threads tid').list.set i none).drop (i + 1)) = _
      rw [drop_set_succ]
      exact ht
  · rw [threads_finish_ne htid]
    exact h tid' htid

theorem act_turns (h : Turns s) (ha : Act cfg s s') : Turns s' := by
  cases ha with
  | stay => exact h
  | add tid p hfree hid hthread => exact h.setThread (turns_free h hfree rfl rfl rfl)
  | remove tid i p hfree hp => exact h.setThread (turns_free h hfree rfl rfl rfl)
  | lock tid msg now hpc => exact h.setThread (List.nil_append _)
  | move tid pc hmove => exact h.setThread (turns_move h hmove)
  | process tid i p hpc hp =>
    refine turns_makeCall (fun tid' htid => ?_) (by decide) ?_
    · rw [threads_turn_ne htid]
      exact h tid'
    · rw [threads_turn]
      exact turn_slot h hpc hp
  | timer tid i p hpc hp hdue =>
    refine turns_makeCall (fun tid' htid => ?_) (by decide) ?_
    · rw [threads_turn_ne htid]
      exact h tid'
    · rw [threads_turn]
      exact turn_slot h hpc hp
  | pass tid i p hpc hp hdue =>
    refine turns_finish (fun tid' htid => ?_) _ ?_
    · rw [threads_turn_ne htid]
      exact h tid'
    · rw [threads_turn]
      exact turn_slot h hpc hp
  | processed tid i k p hpc hp hdue =>
    exact turns_makeCall (fun tid' _ => h tid') (by decide) (turn_call h hpc (by decide))
  | passed tid i k p fatal hpc hp hdue =>
    exact turns_finish (fun tid' _ => h tid') fatal (turn_call h hpc (by decide))
  | timed tid i k p p' fatal hpc hp hp' =>
    refine turns_finish (fun tid' htid => ?_) fatal ?_
    · rw [State.setPlugin, threads_setThread_ne htid]
      exact h tid'
    · rw [threads_setPlugin]
      simp only [drop_set_succ]
      exact turn_call h hpc (by decide)
  | shutdown tid i p hpc hp =>
    intro tid'
    by_cases htid : tid' = tid
    · subst htid
      have ht := h tid'
      rw [Thread.ahead, hpc] at ht
      rw [threads_makeCall]
      exact ht
    · rw [threads_makeCall_ne htid]
      exact h tid'
  | shutDown tid i k p fatal hpc hp =>
    intro tid'
    by_cases htid : tid' = tid
    · subst htid
      have ht := h tid'
      rw [Thread.ahead, hpc] at ht
      rw [threads_finish]
      cases fatal <;> exact ht
    · rw [threads_finish_ne htid]
      exact h tid'
  | refuse tid i k kind p hpc hp hlimit => exact h
  | inject tid i k kind p pb bp hpc hp hlimit hpb =>
    refine h.setThread ?_
    rw [← h tid, Thread.ahead, Thread.ahead, hpc]
    cases kind with
    | shutdown => rfl
    | process | timer => simp only [drop_set_succ]
  | spill n => exact h

end

/-! ## The calls -/

section

variable {calls : List Call} {injected : List (Nat × List UInt8)} {t : Thread} {i : Nat} {p : Plugin}

theorem accepted_concat (injected : List (Nat × List UInt8)) (k k' : Nat) (pb : List UInt8) :
    accepted (injected ++ [(k, pb)]) k' = accepted injected k' + if k = k' then 1 else 0 := by
  simp [accepted, List.countP_append, List.countP_cons]

theorem accepted_fresh (h : ∀ x ∈ injected, x.1 < calls.length) : accepted injected calls.length = 0 := by
  refine List.countP_eq_zero.mpr fun x hx => ?_
  have := h x hx
  simp only [decide_eq_true_eq]
  omega

theorem getElem?_concat {c c' : Call} {k : Nat} (h : (calls ++ [c])[k]? = some c') :
    calls[k]? = some c' ∨ k = calls.length ∧ c' = c := by
  rcases Nat.lt_or_ge k calls.length with hlt | hge
  · exact .inl (by rwa [List.getElem?_append_left hlt] at h)
  · rw [List.getElem?_append_right hge] at h
    have hk := (List.getElem?_eq_some_iff.mp h).1
    rw [List.length_singleton] at hk
    have heq : k = calls.length := by omega
    subst heq
    rw [Nat.sub_self] at h
    exact .inr ⟨rfl, (Option.some.inj h).symm⟩

/-- A call for a plugin that is not on the thread. -/
theorem Thread.Ok.append_call (h : t.Ok calls injected) {c : Call}
    (hother : ∀ (j : Nat) (q : Plugin), t.list[j]? = some (some q) → c.plugin ≠ q.id) :
    t.Ok (calls ++ [c]) injected := by
  refine ⟨fun kind i k hpc => ?_, fun i q hq k c' hc hid => ?_, h.due⟩
  · obtain ⟨p, hp, hcall, hrest⟩ := h.call kind i k hpc
    exact ⟨p, hp, by rw [List.getElem?_append_left (List.getElem?_eq_some_iff.mp hcall).1, hcall], hrest⟩
  · rcases getElem?_concat hc with hc | ⟨-, rfl⟩
    · exact h.timer i q hq k c' hc hid
    · exact absurd hid (hother i q hq)

/-- A message injected in a call of another thread. -/
theorem Thread.Ok.inject_other (h : t.Ok calls injected) {k : Nat} {pb : List UInt8}
    (hother : ∀ kind i, t.pc ≠ .call kind i k) : t.Ok calls (injected ++ [(k, pb)]) := by
  refine ⟨fun kind i k' hpc => ?_, h.timer, h.due⟩
  obtain ⟨p, hp, hcall, hlimit, hdue⟩ := h.call kind i k' hpc
  have hk : k ≠ k' := fun hk => hother kind i (hk ▸ hpc)
  exact ⟨p, hp, hcall, by rw [accepted_concat, if_neg hk, Nat.add_zero, hlimit], hdue⟩

/-- A thread that is not in a timer event goes on to where it is in no call, with some of its plugins. -/
theorem Thread.Ok.go {t' : Thread} (h : t.Ok calls injected) (hpc : ∀ i k, t.pc ≠ .call .timer i k)
    (hnone : ∀ kind i k, t'.pc ≠ .call kind i k)
    (hlist : ∀ (j : Nat) (q : Plugin), t'.list[j]? = some (some q) → t.list[j]? = some (some q))
    (hdue : ∀ (j : Nat) (q : Plugin), j < t'.pc.done → t'.list[j]? = some (some q) →
      q.options.tickerInterval ≤ 0 ∨ t'.currentT < q.tickerExpires) : t'.Ok calls injected := by
  refine ⟨fun kind i k hcall => absurd hcall (hnone kind i k), fun i q hq k c hc hid => ?_, hdue⟩
  obtain ⟨hopt, htimer⟩ := h.timer i q (hlist i q hq) k c hc hid
  exact ⟨hopt, fun hkind hpos _ => htimer hkind hpos (hpc i k)⟩

theorem not_due (h : ¬Due t p) : p.options.tickerInterval ≤ 0 ∨ t.currentT < p.tickerExpires := by
  unfold Due at h
  omega

/-- The end of a round: the plugin left its slot or is not due. -/
theorem Thread.Ok.finish (h : t.Ok calls injected) (hpc : ∀ i k, t.pc ≠ .call .timer i k)
    (hdone : t.pc.done = i) (hp : t.list[i]? = some (some p)) (fatal : Bool)
    (hdue : fatal = false → p.options.tickerInterval ≤ 0 ∨ t.currentT < p.tickerExpires) :
    Thread.Ok calls injected { if fatal then t.removePlugin i else t with pc := .slot (i + 1) } := by
  have hslots : ∀ (j : Nat) (q : Plugin), (if fatal then t.removePlugin i else t).list[j]? = some (some q) →
      t.list[j]? = some (some q) ∧ (fatal = true → j ≠ i) := by
    intro j q hq
    cases fatal with
    | false => exact ⟨hq, fun h => (by cases h)⟩
    | true =>
      obtain ⟨hj, hq⟩ := Slots.getElem?_clear.mp hq
      exact ⟨hq, fun _ => hj⟩
  have hclock : (if fatal then t.removePlugin i else t).currentT = t.currentT := by
    cases fatal <;> rfl
  refine h.go hpc (fun kind i k hcall => (by cases hcall)) (fun j q hq => (hslots j q hq).1)
    fun j q hj hq => ?_
  obtain ⟨hslot, hne⟩ := hslots j q hq
  rw [hclock]
  rcases Nat.lt_succ_iff_lt_or_eq.mp hj with hj | rfl
  · exact h.due j q (hdone ▸ hj) hslot
  · have hfatal : fatal = false := by
      cases fatal with
      | false => rfl
      | true => exact absurd rfl (hne rfl)
    obtain rfl : p = q := Option.some.inj (Option.some.inj (hp.symm.trans hslot))
    exact hdue hfatal

end

/-! ## Steps -/

section

variable {cfg : HsConfig} {d : Dir} {s s' : State} {tid i : Nat} {p : Plugin}

/-- One thread changes, and no call is made. -/
theorem Inv.setThread (h : Inv cfg d s) {t : Thread} (hlists : Lists (s.setThread tid t))
    (ht : t.Ok s.calls s.injected) : Inv cfg d (s.setThread tid t) := by
  refine ⟨hlists, fun tid' => ?_, h.quota, h.tags, h.refused, h.known, h.spaced, h.interval, h.queue⟩
  by_cases htid : tid' = tid
  · subst htid
    rw [threads_setThread]
    exact ht
  · rw [threads_setThread_ne htid]
    exact h.threads tid'

theorem Inv.turn (h : Inv cfg d s) : Inv cfg d (s.turn tid p) :=
  h.setThread h.lists.turn ⟨(h.threads tid).call, (h.threads tid).timer, (h.threads tid).due⟩

/-- The plugin of a slot is in no slot of another thread. -/
theorem Inv.other (h : Inv cfg d s) (hp : s.At tid i p) {tid' : Nat} (htid : tid' ≠ tid) (j : Nat)
    (q : Plugin) (hq : (s.threads tid').list[j]? = some (some q)) : p.id ≠ q.id :=
  fun heq => htid (h.lists.unique tid i p tid' j q hp hq heq).1.symm

/-- No other thread is in the call of a slot. -/
theorem Inv.call_other (h : Inv cfg d s) {kind : Kind} {k : Nat}
    (hpc : (s.threads tid).pc = .call kind i k) {tid' : Nat} (htid : tid' ≠ tid) (kind' : Kind)
    (j : Nat) : (s.threads tid').pc ≠ .call kind' j k := by
  intro hpc'
  obtain ⟨p, hp, hcall, -⟩ := (h.threads tid).call kind i k hpc
  obtain ⟨q, hq, hcall', -⟩ := (h.threads tid').call kind' j k hpc'
  rw [hcall] at hcall'
  have hid : p.id = q.id := congrArg Call.plugin (Option.some.inj hcall')
  exact h.other hp htid j q hq hid

/-- A call is made by a thread that is not in a timer event. -/
theorem Inv.makeCall (h : Inv cfg d s) (hp : s.At tid i p) {kind : Kind}
    (hpc : ∀ j k, (s.threads tid).pc ≠ .call .timer j k)
    (hdone : kind ≠ .shutdown → (s.threads tid).pc.done = i)
    (hdue : kind = .timer → Due (s.threads tid) p) : Inv cfg d (s.makeCall tid kind i p) := by
  have hfresh := accepted_fresh h.tags
  have hlt := (List.getElem?_eq_some_iff.mp hp).1
  have hold := h.threads tid
  have hnew : ∀ {k : Nat} {c : Call}, (s.makeCall tid kind i p).calls[k]? = some c →
      s.calls[k]? = some c ∨ k = s.calls.length ∧ c = ⟨p.id, p.options, kind, (s.threads tid).currentT⟩ :=
    fun hc => getElem?_concat hc
  refine ⟨h.lists.makeCall hp kind, fun tid' => ?_, fun k c hc => ?_, fun x hx => ?_, fun k hk => ?_,
    fun c hc => ?_, fun j k c c' hjk hc hc' hkind hkind' hid hpos => ?_, fun c hc hkind => ?_, h.queue⟩
  · by_cases htid : tid' = tid
    · subst htid
      rw [threads_makeCall]
      refine ⟨fun kind' i' k hcall => ?_, fun j q hq k c hc hid => ?_, fun j q hj hq => ?_⟩
      · cases hcall
        refine ⟨_, List.getElem?_set_self hlt, List.getElem?_concat_length, ?_, fun hk => (hdue hk).2⟩
        change accepted s.injected s.calls.length + _ = _
        rw [hfresh, Nat.zero_add]
      · -- the plugin in slot `i` is the one the call is made for
        have hslot : j = i ∧ q.id = p.id ∧ q.options = p.options ∧ q.tickerExpires = p.tickerExpires ∨
            j ≠ i ∧ s.At tid' j q := by
          by_cases hj : j = i
          · subst hj
            rw [List.getElem?_set_self hlt] at hq
            cases hq
            exact .inl ⟨rfl, rfl, rfl, rfl⟩
          · rw [List.getElem?_set_ne (Ne.symm hj)] at hq
            exact .inr ⟨hj, hq⟩
        rcases hnew hc with hold' | ⟨rfl, rfl⟩
        · rcases hslot with ⟨rfl, hqid, hqopt, hqexp⟩ | ⟨-, hq⟩
          · obtain ⟨hopt, htimer⟩ := hold.timer j p hp k c hold' (hid.trans hqid)
            rw [hqopt, hqexp]
            exact ⟨hopt, fun hkind hpos _ => htimer hkind hpos (hpc j k)⟩
          · obtain ⟨hopt, htimer⟩ := hold.timer j q hq k c hold' hid
            exact ⟨hopt, fun hkind hpos _ => htimer hkind hpos (hpc j k)⟩
        · rcases hslot with ⟨rfl, hqid, hqopt, hqexp⟩ | ⟨hj, hq⟩
          · exact ⟨hqopt.symm, fun hkind _ hne => absurd (by rw [← hkind]) hne⟩
          · exact absurd (h.lists.unique tid' i p tid' j q hp hq hid).2.symm hj
      · have hkind : kind ≠ .shutdown := by
          rintro rfl
          exact absurd hj (Nat.not_lt_zero _)
        have hji : j < i := by cases kind <;> first | exact hj | exact absurd rfl hkind
        rw [List.getElem?_set_ne (Nat.ne_of_gt hji)] at hq
        exact hold.due j q (hdone hkind ▸ hji) hq
    · rw [threads_makeCall_ne htid]
      exact (h.threads tid').append_call (h.other hp htid)
  · rcases hnew hc with hc | ⟨rfl, -⟩
    · exact h.quota k c hc
    · change accepted s.injected s.calls.length ≤ _
      rw [hfresh]
      exact Nat.zero_le _
  · refine (h.tags x hx).trans_le ?_
    change s.calls.length ≤ (s.calls ++ [_]).length
    simp
  · obtain ⟨c, hc, hlimit⟩ := h.refused k hk
    exact ⟨c, (List.getElem?_append_left (List.getElem?_eq_some_iff.mp hc).1).trans hc, hlimit⟩
  · rcases List.mem_append.mp hc with hc | hc
    · exact h.known c hc
    · rw [List.mem_singleton.mp hc]
      exact (h.lists.home tid i p hp).2
  · rcases hnew hc' with hc' | ⟨rfl, rfl⟩
    · have hj := (List.getElem?_eq_some_iff.mp hc').1
      have hc : s.calls[j]? = some c := (hnew hc).resolve_right fun hj' => by omega
      exact h.spaced j k c c' hjk hc hc' hkind hkind' hid hpos
    · have hc : s.calls[j]? = some c := (hnew hc).resolve_right fun hj' => Nat.ne_of_lt hjk hj'.1
      exact ((hold.timer i p hp j c hc hid).2 hkind hpos (hpc i j)).trans (hdue hkind').2
  · rcases List.mem_append.mp hc with hc | hc
    · exact h.interval c hc hkind
    · rw [List.mem_singleton.mp hc] at hkind ⊢
      exact (hdue hkind).1

theorem finish_eq (s : State) (tid i : Nat) (p : Plugin) (fatal : Bool) (pc : Pc) :
    ∃ b, s.finish tid i p fatal pc = { s.setThread tid
      { if fatal then (s.threads tid).removePlugin i else s.threads tid with pc := pc } with
        sigterm := b } := by
  cases fatal with
  | false => exact ⟨s.sigterm, rfl⟩
  | true =>
    refine ⟨s.sigterm || p.options.shutdownTerminate, ?_⟩
    simp [State.finish, State.terminateSandbox, State.setPc, State.setThread]

/-- A round ends, and no call is open. -/
theorem Inv.finish (h : Inv cfg d s) (hp : s.At tid i p) (fatal : Bool) (pc : Pc)
    (ht : Thread.Ok s.calls s.injected
      { if fatal then (s.threads tid).removePlugin i else s.threads tid with pc := pc }) :
    Inv cfg d (s.finish tid i p fatal pc) := by
  have hlists := h.lists.finish hp fatal pc
  obtain ⟨b, heq⟩ := finish_eq s tid i p fatal pc
  rw [heq] at hlists ⊢
  have hsame : Lists (s.setThread tid
      { if fatal then (s.threads tid).removePlugin i else s.threads tid with pc := pc }) :=
    hlists.congr rfl (fun _ => rfl) fun _ => rfl
  have hset := h.setThread hsame ht
  exact ⟨hlists, hset.threads, hset.quota, hset.tags, hset.refused, hset.known, hset.spaced,
    hset.interval, hset.queue⟩

end

section

variable {cfg : HsConfig} {d : Dir} {s s' : State} {tid i : Nat} {p : Plugin}

/-- A message is accepted in the open call of a thread. -/
theorem Inv.inject (h : Inv cfg d s) {kind : Kind} {k : Nat} (hpc : (s.threads tid).pc = .call kind i k)
    (hp : s.At tid i p) (hlimit : p.imLimit ≠ 0) {pb : List UInt8} (hpb : pb ≠ []) (bp : Backpressure) :
    Inv cfg d { s.setPlugin tid i { p with imLimit := p.imLimit - 1 } with
      queue := appendFrame cfg Varint.encode s.queue pb
      backpressure := bp
      injected := s.injected ++ [(k, pb)] } := by
  have hlt := (List.getElem?_eq_some_iff.mp hp).1
  have hold := h.threads tid
  obtain ⟨p', hp', hcall, hcount, hdue⟩ := hold.call kind i k hpc
  obtain rfl : p = p' := Option.some.inj (Option.some.inj (hp.symm.trans hp'))
  have hset := h.lists.setPlugin hp { p with imLimit := p.imLimit - 1 } rfl rfl
  -- a slot of the thread holds what it held, but for the limit
  have hslot : ∀ (j : Nat) (q : Plugin),
      ((s.threads tid).list.set i (some { p with imLimit := p.imLimit - 1 }))[j]? = some (some q) →
      ∃ q', s.At tid j q' ∧ q'.id = q.id ∧ q'.options = q.options ∧ q'.tickerExpires = q.tickerExpires := by
    intro j q hq
    by_cases hj : j = i
    · subst hj
      rw [List.getElem?_set_self hlt] at hq
      cases hq
      exact ⟨p, hp, rfl, rfl, rfl⟩
    · rw [List.getElem?_set_ne (Ne.symm hj)] at hq
      exact ⟨q, hq, rfl, rfl, rfl⟩
  refine ⟨hset.congr rfl (fun _ => rfl) fun _ => rfl, fun tid' => ?_, fun k' c hc => ?_, fun x hx => ?_,
    fun k' hk' => ?_, h.known, h.spaced, h.interval, ?_⟩
  · change ((s.setPlugin tid i _).threads tid').Ok s.calls (s.injected ++ [(k, pb)])
    by_cases htid : tid' = tid
    · subst htid
      rw [threads_setPlugin]
      refine ⟨fun kind' i' k' hpc' => ?_, fun j q hq k' c hc hid => ?_, fun j q hj hq => ?_⟩
      · obtain ⟨rfl, rfl, rfl⟩ : kind' = kind ∧ i' = i ∧ k' = k := by
          have hsame := hpc.symm.trans hpc'
          cases hsame
          exact ⟨rfl, rfl, rfl⟩
        refine ⟨_, List.getElem?_set_self hlt, hcall, ?_, hdue⟩
        rw [accepted_concat, if_pos rfl]
        change accepted s.injected k' + 1 + (p.imLimit - 1) = _
        rw [← hcount]
        omega
      · obtain ⟨q', hq', hqid, hqopt, hqexp⟩ := hslot j q hq
        rw [← hqopt, ← hqexp]
        exact hold.timer j q' hq' k' c hc (hid.trans hqid.symm)
      · obtain ⟨q', hq', -, hqopt, hqexp⟩ := hslot j q hq
        rw [← hqopt, ← hqexp]
        exact hold.due j q' hj hq'
    · rw [State.setPlugin, threads_setThread_ne htid]
      exact (h.threads tid').inject_other (h.call_other hpc htid)
  · change accepted (s.injected ++ [(k, pb)]) k' ≤ c.limit
    rw [accepted_concat]
    by_cases hk : k = k'
    · subst hk
      obtain rfl : _ = c := Option.some.inj (hcall.symm.trans hc)
      rw [if_pos rfl]
      change _ ≤ p.options.limit kind
      omega
    · rw [if_neg hk]
      exact h.quota k' c hc
  · rcases List.mem_append.mp hx with hx | hx
    · exact h.tags x hx
    · rw [List.mem_singleton.mp hx]
      exact (List.getElem?_eq_some_iff.mp hcall).1
  · obtain ⟨c, hc, hfull⟩ := h.refused k' hk'
    refine ⟨c, hc, ?_⟩
    change accepted (s.injected ++ [(k, pb)]) k' = c.limit
    rw [accepted_concat, if_neg, hfull, Nat.add_zero]
    -- the call that was turned away has nothing left
    rintro rfl
    obtain rfl : _ = c := Option.some.inj (hcall.symm.trans hc)
    change accepted s.injected k = p.options.limit kind at hfull
    omega
  · obtain ⟨es, hrun, hinjected⟩ := h.queue
    refine ⟨es ++ [.inject pb], ?_, ?_⟩
    · rw [Runs.run_append, hrun, Option.bind_some]
      simp only [Runs.run, QueueWriter.step, if_neg hpb]
    · rw [QueueWriter.injected, List.filterMap_append, List.map_append]
      exact congrArg (· ++ [pb]) hinjected

/-- The lists change only where no one is in them. -/
theorem free_pc {t : Thread} (h : t.Free) : (∀ kind j k, t.pc ≠ .call kind j k) ∧ t.pc.done = 0 := by
  rcases h with h | h
  · rw [h]
    exact ⟨fun _ _ _ => nofun, rfl⟩
  · rw [h]
    exact ⟨fun _ _ _ => nofun, rfl⟩

theorem Inv.add (h : Inv cfg d s) (hfree : (s.threads tid).Free) (hid : p.id = s.nextId)
    (hthread : p.thread = tid) :
    Inv cfg d { s.setThread tid ((s.threads tid).addToAnalysisPlugins p) with nextId := s.nextId + 1 } := by
  obtain ⟨hcall, hdone⟩ := free_pc hfree
  refine ⟨h.lists.add hid hthread, fun tid' => ?_, h.quota, h.tags, h.refused,
    fun c hc => Nat.lt_succ_of_lt (h.known c hc), h.spaced, h.interval, h.queue⟩
  change ((s.setThread tid _).threads tid').Ok s.calls s.injected
  by_cases htid : tid' = tid
  · subst htid
    rw [threads_setThread]
    refine ⟨fun kind j k hpc => absurd hpc (hcall kind j k), fun j q hq k c hc heq => ?_, fun j q hj => ?_⟩
    · rcases (Slots.getElem?_fill Slots.getElem?_firstFree).mp hq with ⟨-, rfl⟩ | hq
      · have hlt := h.known c (List.mem_of_getElem? hc)
        rw [heq, hid] at hlt
        exact absurd hlt (Nat.lt_irrefl _)
      · exact (h.threads tid').timer j q (Slots.getElem?_grown.mp hq) k c hc heq
    · change j < (s.threads tid').pc.done at hj
      rw [hdone] at hj
      exact absurd hj (Nat.not_lt_zero _)
  · rw [threads_setThread_ne htid]
    exact h.threads tid'

/-- A plugin whose timer event ended is not due. -/
theorem Inv.timed (h : Inv cfg d s) {k : Nat} (hpc : (s.threads tid).pc = .call .timer i k)
    (hp : s.At tid i p) {p' : Plugin}
    (hp' : p' = { p with tickerExpires := (s.threads tid).currentT + p.options.tickerInterval })
    (fatal : Bool) : Inv cfg d ((s.setPlugin tid i p').finish tid i p' fatal (.slot (i + 1))) := by
  have hlt := (List.getElem?_eq_some_iff.mp hp).1
  have hold := h.threads tid
  obtain ⟨q, hq, hcall, -, hdue⟩ := hold.call .timer i k hpc
  obtain rfl : p = q := Option.some.inj (Option.some.inj (hp.symm.trans hq))
  have hlists := h.lists.setPlugin hp p' (by rw [hp']) (by rw [hp'])
  -- in the thread between the two, the call has ended
  have hmid : Thread.Ok s.calls s.injected { s.threads tid with
      list := (s.threads tid).list.set i (some p'), pc := .slot i } := by
    refine ⟨fun kind j k hcall => (by cases hcall), fun j q hq k' c hc hid => ?_, fun j q hj hq => ?_⟩
    · by_cases hj : j = i
      · subst hj
        rw [List.getElem?_set_self hlt] at hq
        cases hq
        rw [hp'] at hid ⊢
        obtain ⟨hopt, htimer⟩ := hold.timer j p hp k' c hc hid
        refine ⟨hopt, fun hkind hpos _ => ?_⟩
        change c.time + _ ≤ (s.threads tid).currentT + p.options.tickerInterval
        by_cases hk : k' = k
        · subst hk
          obtain rfl : _ = c := Option.some.inj (hcall.symm.trans hc)
          exact le_rfl
        · have hle := htimer hkind hpos fun hsame => hk (by cases hpc.symm.trans hsame; rfl)
          have hexp := hdue rfl
          rw [hopt] at hle hpos ⊢
          omega
      · rw [List.getElem?_set_ne (Ne.symm hj)] at hq
        obtain ⟨hopt, htimer⟩ := hold.timer j q hq k' c hc hid
        refine ⟨hopt, fun hkind hpos _ => htimer hkind hpos fun hsame => hj ?_⟩
        cases hpc.symm.trans hsame
        rfl
    · change j < i at hj
      change ((s.threads tid).list.set i (some p'))[j]? = _ at hq
      rw [List.getElem?_set_ne (Nat.ne_of_gt hj)] at hq
      exact hold.due j q (by rw [hpc]; exact hj) hq
  have hself := at_setPlugin_self hp p'
  have hfinish := hmid.finish (fun _ _ => nofun) rfl (List.getElem?_set_self hlt) fatal fun _ => by
    rw [hp']
    change p.options.tickerInterval ≤ 0 ∨ (s.threads tid).currentT < _ + p.options.tickerInterval
    omega
  obtain ⟨b, heq⟩ := finish_eq (s.setPlugin tid i p') tid i p' fatal (.slot (i + 1))
  have hlists' := hlists.finish hself fatal (.slot (i + 1))
  rw [heq] at hlists' ⊢
  refine ⟨hlists', fun tid' => ?_, h.quota, h.tags, h.refused, h.known, h.spaced, h.interval, h.queue⟩
  change (((s.setPlugin tid i p').setThread tid _).threads tid').Ok s.calls s.injected
  by_cases htid : tid' = tid
  · subst htid
    rw [threads_setThread, threads_setPlugin]
    cases fatal <;> exact hfinish
  · rw [threads_setThread_ne htid, State.setPlugin, threads_setThread_ne htid]
    exact h.threads tid'

end

section

variable {cfg : HsConfig} {d : Dir} {s s' : State} {tid : Nat}

/-- A thread whose list is shortened, or which takes its lock. -/
theorem Thread.Ok.free {calls : List Call} {injected : List (Nat × List UInt8)} {t t' : Thread}
    (h : t.Ok calls injected) (hfree : t.Free) (hnone : ∀ kind i k, t'.pc ≠ .call kind i k)
    (hdone : t'.pc.done = 0)
    (hlist : ∀ (j : Nat) (q : Plugin), t'.list[j]? = some (some q) → t.list[j]? = some (some q)) :
    t'.Ok calls injected := by
  refine h.go (fun i k => (free_pc hfree).1 .timer i k) hnone hlist fun j q hj => ?_
  rw [hdone] at hj
  exact absurd hj (Nat.not_lt_zero _)

theorem Thread.Ok.move {calls : List Call} {injected : List (Nat × List UInt8)} {t : Thread} {pc : Pc}
    (h : t.Ok calls injected) (hmove : Moves t pc) : Thread.Ok calls injected { t with pc := pc } := by
  have hpc : ∀ i k, t.pc ≠ .call .timer i k := by
    intro i k hcall
    cases hmove with
    | done hpc | next hpc | shutdown hpc | shutdownNext hpc | exit hpc => cases hpc.symm.trans hcall
  refine h.go hpc (fun kind i k hcall => ?_) (fun j q hq => hq) fun j q hj hq => ?_
  · change pc = _ at hcall
    subst hcall
    cases hmove
  · change j < pc.done at hj
    cases hmove with
    | done | shutdown | shutdownNext | exit => exact absurd hj (Nat.not_lt_zero _)
    | next hpc hnone =>
      rcases Nat.lt_succ_iff_lt_or_eq.mp hj with hj | rfl
      · exact h.due j q (by rw [hpc]; exact hj) hq
      · cases hnone.symm.trans hq

theorem act_inv (h : Inv cfg d s) (ha : Act cfg s s') : Inv cfg d s' := by
  have hlists := act_lists h.lists ha
  cases ha with
  | stay => exact h
  | add tid p hfree hid hthread => exact h.add hfree hid hthread
  | remove tid i p hfree hp =>
    refine h.setThread hlists ((h.threads tid).free hfree (free_pc hfree).1 (free_pc hfree).2 ?_)
    exact fun j q hq => (Slots.getElem?_clear.mp hq).2
  | lock tid msg now hpc =>
    exact h.setThread hlists
      ((h.threads tid).free (.inl hpc) (fun _ _ _ => nofun) rfl fun _ _ hq => hq)
  | move tid pc hmove => exact h.setThread hlists ((h.threads tid).move hmove)
  | process tid i p hpc hp =>
    refine h.turn.makeCall (at_turn.mpr hp) (fun j k => ?_) (fun _ => ?_) fun hk => (by cases hk)
    · rw [threads_turn, hpc]
      exact nofun
    · rw [threads_turn, hpc]
      rfl
  | timer tid i p hpc hp hdue =>
    refine h.turn.makeCall (at_turn.mpr hp) (fun j k => ?_) (fun _ => ?_) fun _ => ?_
    · rw [threads_turn, hpc]
      exact nofun
    · rw [threads_turn, hpc]
      rfl
    · rw [threads_turn]
      exact hdue
  | pass tid i p hpc hp hdue =>
    have hturn : Inv cfg d (s.turn tid p) := h.turn
    have hp' : ((s.turn tid p).threads tid).list[i]? = some (some p) := at_turn.mpr hp
    refine hturn.finish hp' false _ ((hturn.threads tid).finish (fun i k => ?_) ?_ hp' false fun _ => ?_)
    · rw [threads_turn, hpc]
      exact nofun
    · rw [threads_turn, hpc]
      rfl
    · rw [threads_turn]
      exact not_due hdue
  | processed tid i k p hpc hp hdue =>
    exact h.makeCall hp (fun _ _ => by rw [hpc]; exact nofun) (fun _ => by rw [hpc]; rfl) fun _ => hdue
  | passed tid i k p fatal hpc hp hdue =>
    refine h.finish hp fatal _ ((h.threads tid).finish (fun _ _ => ?_) ?_ hp fatal fun hf => ?_)
    · rw [hpc]
      exact nofun
    · rw [hpc]
      rfl
    · exact not_due (hdue hf)
  | timed tid i k p p' fatal hpc hp hp' => exact h.timed hpc hp hp' fatal
  | shutdown tid i p hpc hp =>
    exact h.makeCall hp (fun _ _ => by rw [hpc]; exact nofun) (fun hk => absurd rfl hk) fun hk => (by cases hk)
  | shutDown tid i k p fatal hpc hp =>
    refine h.finish hp fatal _ ((h.threads tid).go (fun _ _ => ?_) (fun _ _ _ => nofun) (fun j q hq => ?_)
      fun j q hj => absurd hj (Nat.not_lt_zero _))
    · rw [hpc]
      exact nofun
    · cases fatal with
      | false => exact hq
      | true => exact (Slots.getElem?_clear.mp hq).2
  | refuse tid i k kind p hpc hp hlimit =>
    obtain ⟨q, hq, hcall, hcount, -⟩ := (h.threads tid).call kind i k hpc
    obtain rfl : p = q := Option.some.inj (Option.some.inj (hp.symm.trans hq))
    refine ⟨hlists, h.threads, h.quota, h.tags, fun k' hk' => ?_, h.known, h.spaced, h.interval, h.queue⟩
    rcases List.mem_append.mp hk' with hk' | hk'
    · exact h.refused k' hk'
    · rw [List.mem_singleton.mp hk']
      refine ⟨_, hcall, ?_⟩
      rw [hlimit, Nat.add_zero] at hcount
      exact hcount
  | inject tid i k kind p pb bp hpc hp hlimit hpb => exact h.inject hpc hp hlimit hpb bp
  | spill n =>
    refine ⟨hlists, h.threads, h.quota, h.tags, h.refused, h.known, h.spaced, h.interval, ?_⟩
    obtain ⟨es, hrun, hinjected⟩ := h.queue
    refine ⟨es ++ [.spill n], ?_, ?_⟩
    · rw [Runs.run_append, hrun]
      rfl
    · rw [QueueWriter.injected, List.filterMap_append]
      exact (List.append_nil _).trans hinjected

variable (cfg d) in
theorem inv_init : Inv cfg d (init d) where
  lists := by
    have hnone : ∀ {tid i p}, ¬(init d).At tid i p := fun hp => by simp [State.At, init] at hp
    exact ⟨fun _ => rfl, fun _ _ _ hp => absurd hp hnone, fun _ _ _ _ _ _ hp => absurd hp hnone⟩
  threads tid := ⟨fun _ _ _ hpc => (by cases hpc), fun i p hp => by simp [init] at hp,
    fun j p hj => absurd hj (Nat.not_lt_zero _)⟩
  quota k c hc := by simp [init] at hc
  tags x hx := absurd hx List.not_mem_nil
  refused k hk := absurd hk List.not_mem_nil
  known c hc := absurd hc List.not_mem_nil
  spaced j k c c' _ hc := by simp [init] at hc
  interval c hc := absurd hc List.not_mem_nil
  queue := ⟨[], rfl, rfl⟩

theorem always_inv (cfg : HsConfig) (n : Nat) (d : Dir) (es : List Event) :
    Runs.Always (step cfg n) (Inv cfg d) (init d) es :=
  Runs.always_of_invariant (fun _ _ _ h hs => act_inv h (act_of_step hs)) (inv_init cfg d) es

end

/-! ## Results -/

/-- No call injects more than its limit, one is turned away only when it has injected as many, and the queue is
what the accepted messages leave that were injected one after the other. -/
structure Limited (cfg : HsConfig) (d : Dir) (s : State) : Prop where
  quota : ∀ (k : Nat) c, s.calls[k]? = some c → accepted s.injected k ≤ c.limit
  refused : ∀ k ∈ s.refused, ∃ c, s.calls[k]? = some c ∧ accepted s.injected k = c.limit
  total : s.injected.length ≤ (s.calls.map Call.limit).sum
  queue : ∃ es, Runs.run (QueueWriter.step cfg) (hsInitOutput d) es = some s.queue ∧
    QueueWriter.injected es = s.injected.map Prod.snd

theorem countP_lt_succ (injected : List (Nat × List UInt8)) (n : Nat) :
    injected.countP (·.1 < n + 1) = injected.countP (·.1 < n) + accepted injected n := by
  unfold accepted
  induction injected with
  | nil => rfl
  | cons x xs ih =>
    simp only [List.countP_cons, ih, decide_eq_true_eq]
    split <;> split <;> split <;> omega

/-- The messages of the first `n` calls. -/
theorem countP_calls (injected : List (Nat × List UInt8)) (n : Nat) :
    injected.countP (·.1 < n) = ((List.range n).map (accepted injected)).sum := by
  induction n with
  | zero => simp
  | succ n ih =>
    rw [countP_lt_succ, ih, List.range_succ, List.map_append, List.sum_append, List.map_singleton,
      List.sum_singleton]

theorem sum_accepted {injected : List (Nat × List UInt8)} {n : Nat} (h : ∀ x ∈ injected, x.1 < n) :
    injected.length = ((List.range n).map (accepted injected)).sum := by
  rw [← countP_calls]
  refine (List.countP_eq_length.mpr fun x hx => ?_).symm
  exact decide_eq_true (h x hx)

theorem Inv.limited {cfg : HsConfig} {d : Dir} {s : State} (h : Inv cfg d s) : Limited cfg d s where
  quota := h.quota
  refused := h.refused
  total := by
    rw [sum_accepted h.tags]
    have hlimits : s.calls.map Call.limit =
        (List.range s.calls.length).map fun k => (s.calls[k]?.map Call.limit).getD 0 := by
      refine List.ext_getElem (by simp) fun k hk _ => ?_
      rw [List.length_map] at hk
      simp [List.getElem?_eq_getElem hk]
    rw [hlimits]
    refine List.sum_le_sum fun k hk => ?_
    have hlt := List.mem_range.mp hk
    have hc : s.calls[k]? = some s.calls[k] := List.getElem?_eq_getElem hlt
    rw [hc]
    exact h.quota k _ hc
  queue := h.queue

/-- For any threads and plugins, in any order of their calls. -/
theorem injections_limited (cfg : HsConfig) (n : Nat) (d : Dir) (es : List Event) :
    Runs.Always (step cfg n) (Limited cfg d) (init d) es :=
  (always_inv cfg n d es).mono fun _ h => h.limited

/-- The timer events of a plugin are an interval apart, none is for a plugin without an interval, and behind a
thread in `analyze_message` no plugin is due. The interval of a plugin is the one it was loaded with. -/
structure Punctual (s : State) : Prop where
  spaced : Spaced s.calls
  interval : ∀ c ∈ s.calls, c.kind = .timer → c.options.tickerInterval ≠ 0
  due : ∀ tid i, (s.threads tid).pc = .slot i → ∀ j p, j < i → s.At tid j p →
    p.options.tickerInterval ≤ 0 ∨ (s.threads tid).currentT < p.tickerExpires

/-- For any times the clock may show. -/
theorem timers_spaced (cfg : HsConfig) (n : Nat) (d : Dir) (es : List Event) :
    Runs.Always (step cfg n) Punctual (init d) es :=
  (always_inv cfg n d es).mono fun _ h =>
    ⟨h.spaced, h.interval, fun tid _ hpc j p hj hp => (h.threads tid).due j p (by rw [hpc]; exact hj) hp⟩

/-! ### The lists -/

section

variable {cfg : HsConfig} {s s' : State} {tid tid' i : Nat} {p : Plugin}

theorem atLock_setThread {t : Thread} (h : t.atLock = (s.threads tid).atLock) :
    ((s.setThread tid t).threads tid').atLock = (s.threads tid').atLock := by
  by_cases htid : tid' = tid
  · rw [htid, threads_setThread, h]
  · rw [threads_setThread_ne htid]

theorem atLock_setPc {pc : Pc} : ((s.setPc tid pc).threads tid').atLock = (s.threads tid').atLock :=
  atLock_setThread rfl

theorem atLock_setPlugin : ((s.setPlugin tid i p).threads tid').atLock = (s.threads tid').atLock :=
  atLock_setThread rfl

theorem atLock_turn : ((s.turn tid p).threads tid').atLock = (s.threads tid').atLock :=
  atLock_setThread rfl

theorem atLock_makeCall {kind : Kind} :
    ((s.makeCall tid kind i p).threads tid').atLock = (s.threads tid').atLock :=
  atLock_setPc.trans atLock_setPlugin

theorem atLock_finish {fatal : Bool} {pc : Pc} :
    ((s.finish tid i p fatal pc).threads tid').atLock = (s.threads tid').atLock := by
  cases fatal with
  | false => exact atLock_setPc
  | true =>
    have hremove : ((s.terminateSandbox tid i p).threads tid').atLock = (s.threads tid').atLock :=
      atLock_setThread (t := (s.threads tid).removePlugin i) rfl
    exact atLock_setPc.trans hremove

theorem act_atLock (ha : Act cfg s s') (tid' : Nat) :
    (s'.threads tid').atLock = (s.threads tid').atLock ∨
      (s'.threads tid').atLock = ids (s.threads tid').list := by
  cases ha with
  | stay | spill | refuse => exact .inl rfl
  | lock tid msg now hpc =>
    by_cases htid : tid' = tid
    · subst htid
      rw [threads_setThread]
      exact .inr rfl
    · rw [threads_setThread_ne htid]
      exact .inl rfl
  | add tid p => exact .inl (atLock_setThread (t := (s.threads tid).addToAnalysisPlugins p) rfl)
  | remove tid i => exact .inl (atLock_setThread (t := (s.threads tid).removePlugin i) rfl)
  | move => exact .inl atLock_setPc
  | inject => exact .inl atLock_setPlugin
  | process | timer => exact .inl (atLock_makeCall.trans atLock_turn)
  | pass => exact .inl (atLock_finish.trans atLock_turn)
  | timed => exact .inl (atLock_finish.trans atLock_setPlugin)
  | processed | shutdown => exact .inl atLock_makeCall
  | passed | shutDown => exact .inl atLock_finish

/-- A list with no plugin in two slots. -/
theorem ids_nodup {list : List (Option Plugin)}
    (h : ∀ (i j : Nat) (p q : Plugin), list[i]? = some (some p) → list[j]? = some (some q) → p.id = q.id →
      i = j) : (ids list).Nodup := by
  induction list with
  | nil => exact List.nodup_nil
  | cons o list ih =>
    have hrest := ih fun i j p q hp hq heq => Nat.succ.inj (h (i + 1) (j + 1) p q hp hq heq)
    cases o with
    | none => exact hrest
    | some p =>
      refine List.nodup_cons.mpr ⟨fun hmem => ?_, hrest⟩
      obtain ⟨q, hq, heq⟩ := List.mem_map.mp hmem
      obtain ⟨o, ho, rfl⟩ := List.mem_filterMap.mp hq
      obtain ⟨j, hj⟩ := List.mem_iff_getElem?.mp ho
      cases h 0 (j + 1) p q rfl hj heq.symm

/-- The counts are right, each plugin is on its thread in one slot, and after a pass each plugin that was
listed when it began had its turn, once. -/
structure Consistent (s : State) : Prop where
  count : ∀ tid, (s.threads tid).listCnt = Slots.occupied (s.threads tid).list
  home : ∀ tid i p, s.At tid i p → p.thread = tid
  slot : ∀ tid i p tid' j q, s.At tid i p → s.At tid' j q → p.id = q.id → tid = tid' ∧ i = j
  turns : ∀ tid, (s.threads tid).pc = .unlocked → (s.threads tid).offered = (s.threads tid).atLock
  once : ∀ tid, (s.threads tid).offered.Nodup

theorem consistent_of (hlists : Lists s) (hturns : Turns s) (hlock : ∀ tid, (s.threads tid).atLock.Nodup) :
    Consistent s where
  count := hlists.count
  home tid i p hp := (hlists.home tid i p hp).1
  slot := hlists.unique
  turns tid hpc := by
    have ht := hturns tid
    rw [Thread.ahead, hpc, List.append_nil] at ht
    exact ht
  once tid := by
    have hnodup := hlock tid
    rw [← hturns tid] at hnodup
    exact hnodup.of_append_left

end

/-- For any number of threads, in any order of the steps. -/
theorem lists_consistent (cfg : HsConfig) (n : Nat) (d : Dir) (es : List Event) :
    Runs.Always (step cfg n) Consistent (init d) es := by
  refine (Runs.always_of_invariant
    (I := fun s => Lists s ∧ Turns s ∧ ∀ tid, (s.threads tid).atLock.Nodup) ?_ ?_ es).mono
    fun _ h => consistent_of h.1 h.2.1 h.2.2
  · rintro s e s' ⟨hlists, hturns, hlock⟩ hs
    have ha := act_of_step hs
    refine ⟨act_lists hlists ha, act_turns hturns ha, fun tid => ?_⟩
    rcases act_atLock ha tid with h | h
    · rw [h]
      exact hlock tid
    · rw [h]
      exact ids_nodup fun i j p q hp hq heq => (hlists.unique tid i p tid j q hp hq heq).2
  · exact ⟨(inv_init cfg d).lists, fun _ => rfl, fun _ => List.nodup_nil⟩

/-- A plugin with a limit of one message injects two when it is offered a message and is turned away once; it
terminates, and the plugin after it has its turn. -/
example :
    let run : List Event := [.add "analysis.a".toList ⟨1, 0, 0, false⟩ 3 0,
      .add "analysis.b".toList ⟨0, 1, 60, false⟩ 5 100, .analyze 1 true 100, .visit 1 true,
      .inject 1 [7] ⟨0, none, none⟩, .inject 1 [8] ⟨0, none, none⟩, .ret 1 1, .visit 1 false,
      .inject 1 [9] ⟨0, none, none⟩, .ret 1 0, .visit 1 false]
    (Runs.run (step ⟨100, 0, 0⟩ 2) (init ⟨[], fun _ => []⟩) run).map
      (fun s => ((s.threads 1).list.map (·.map Plugin.id), s.injected, s.refused, (s.threads 1).offered)) =
      some ([none, some 1], [(0, [7]), (1, [9])], [0], [0, 1]) := by
  decide +kernel

end AnalyzeMessage

end Hindsight
