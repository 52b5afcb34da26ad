import Hindsight.QueueFeed
import Hindsight.OutputPlugin

/-!
# Hindsight.CliThread

`input_thread` of the analysis and of the output plugins in the `HINDSIGHT_CLI` build, with one plugin.
The analysis thread reads the input queue only. The queues are still being written until `stop` is set;
after that nothing is added to them. File ids do not wrap around.

* `Side.poll`, `Side.openNext`: a loop turn's work on one queue.
* `Thread.choose`, `Thread.answer`: the oldest message is offered, or the idle timer runs.
* `step`: the loop, with the arrival of messages and the stop as events of their own.
* `step_head` and the like: when an event can happen, and what it does.
-/

namespace Hindsight

namespace CliThread

/-- What a thread is started with and what its queues will hold. `timestamp` is that of a message. -/
structure Setup where
  kind : ReaderKind
  readQueue : ReadQueue
  single : kind = .analysis → readQueue = .input
  outputSize : Nat
  tickerInterval : Nat
  lib : SandboxLib
  timestamp : List UInt8 → Int
  content : Queue → Dir
  start : Queue → Checkpoint

theorem single_output (readQueue : ReadQueue) (h : ReaderKind.output = .analysis) : readQueue = .input := by
  cases h

/-! ## One queue -/

/-- A queue as the thread reads it: `pim` or `pam` is `held`, `input_stop` or `analysis_stop` is
`stopped`. -/
structure Side where
  input : HsInput
  ib : InputBuffer
  held : Option (List UInt8)
  bytesRead : Nat
  stopped : Bool

/-- How the work on a queue goes on: to the rest of the turn, to the open of the next file, or with
nothing more to read. -/
inductive Outcome where
  | moveOn
  | tryNext
  | atEnd
  deriving DecidableEq, Repr

namespace Side

/-- The turn's work on a queue when `v` is on disk: the first file is opened, the next message is found,
or the file is read. -/
def poll (S : Setup) (v : Dir) (n : Nat) (s : Side) : Side × Outcome :=
  match s.input.fh with
  | none =>
    let opened := hsOpenFile v s.input s.input.cp.id
    ({ s with input := opened.1 }, if opened.2 then .moveOn else .atEnd)
  | some _ =>
    match s.held with
    | some _ => (s, .moveOn)
    | none =>
      match S.lib.find s.ib with
      | (ib, some pb) => ({ s with ib := ib, held := some pb }, .moveOn)
      | (ib, none) =>
        let result := readInto S.lib v s.input ib n
        ({ s with input := result.1, ib := result.2.1, bytesRead := result.2.2.length },
          if result.2.2 = [] then
            if result.1.cp.offset ≥ S.outputSize then .tryNext else .atEnd
          else .moveOn)

/-- `hs_open_file` of the file after the one that was read to its end. -/
def openNext (v : Dir) (s : Side) : Side × Outcome :=
  let opened := hsOpenFile v s.input (s.input.cp.id + 1)
  ({ s with input := opened.1 }, if opened.2 then .moveOn else .atEnd)

end Side

/-! ## The thread -/

/-- Where the thread is. `offer` is a call of `analyze_message` or `output_message`; `again` tells a
re-offer of the retry loop. `failed` is the loop left on a fatal error. -/
inductive Pc where
  | head
  | poll (q : Queue)
  | openNext (q : Queue)
  | choose
  | offer (q : Queue) (pb : List UInt8) (again : Bool)
  | exited
  | failed
  deriving DecidableEq, Repr

/-- `stop` is that of the plugin, `localStop` the one of the thread. `arrived` is where the queues end
so far. -/
structure Thread where
  side : Queue → Side
  arrived : Queue → Checkpoint
  stop : Bool
  localStop : Bool
  currentT : Nat
  cliNs : Nat
  tickerExpires : Nat
  alive : Bool
  pc : Pc

/-- What the plugin makes of a message. The non-fatal codes but `RETRY` are `final`. -/
inductive Verdict where
  | unmatched
  | final
  | retry
  | fatal
  deriving DecidableEq, Repr

inductive Event where
  | stop
  | arrive (q : Queue) (e : Checkpoint)
  | head
  | poll (n : Nat)
  | openNext
  | choose (fatal : Bool)
  | answer (v : Verdict) (fatal : Bool)
  deriving DecidableEq, Repr

namespace Thread

/-- A thread started when the clock shows `clock`; only the output thread looks at it. -/
def init (S : Setup) (clock : Nat) : Thread where
  side q := ⟨hsInitInput (S.start q), S.lib.initBuffer, none, 0, !S.readQueue.reads q⟩
  arrived _ := ⟨0, 0⟩
  stop := false
  localStop := false
  currentT := match S.kind with
    | .analysis => 0
    | .output => clock
  cliNs := 0
  tickerExpires := 0
  alive := true
  pc := .head

def setSide (t : Thread) (q : Queue) (s : Side) : Thread :=
  { t with side := Function.update t.side q s }

/-- What is on disk of a queue. -/
def view (S : Setup) (t : Thread) (q : Queue) : Dir := (S.content q).upTo (t.arrived q)

def head (t : Thread) : Thread :=
  if t.localStop && (t.side .input).stopped && (t.side .analysis).stopped then { t with pc := .exited }
  else { t with localStop := t.stop, pc := .poll .input }

/-- Where the thread is after its work on a queue. -/
def after : Queue → Pc
  | .input => .poll .analysis
  | .analysis => .choose

/-- Nothing was read from the queue and there is no next file: the thread is done with it when it is to
stop, with the analysis queue not before the input queue. -/
def giveUp (t : Thread) (q : Queue) : Thread :=
  let stops := match q with
    | .input => t.localStop
    | .analysis => (t.side .input).stopped && t.localStop
  t.setSide q { t.side q with stopped := (t.side q).stopped || stops }

/-- The work on a queue is done with `s`. -/
def leave (t : Thread) (q : Queue) (s : Side) : Outcome → Thread
  | .moveOn => { t.setSide q s with pc := after q }
  | .tryNext => { t.setSide q s with pc := .openNext q }
  | .atEnd => { (t.setSide q s).giveUp q with pc := after q }

def poll (S : Setup) (n : Nat) (t : Thread) (q : Queue) : Thread :=
  if S.readQueue.reads q then
    let r := (t.side q).poll S (t.view S q) n
    t.leave q r.1 r.2
  else { t with pc := after q }

def openNext (S : Setup) (t : Thread) (q : Queue) : Thread :=
  let r := (t.side q).openNext (t.view S q)
  t.leave q r.1 r.2

/-- The older of the messages held. -/
def oldest (S : Setup) (t : Thread) : Option (Queue × List UInt8) :=
  match (t.side .input).held, (t.side .analysis).held with
  | some im, some am =>
    if S.timestamp im ≤ S.timestamp am then some (.input, im) else some (.analysis, am)
  | some im, none => some (.input, im)
  | none, some am => some (.analysis, am)
  | none, none => none

/-- Seconds of `cli_ns`. -/
def seconds (ns : Nat) : Nat := ns / 1000000000

/-- The clock of the thread follows the data. -/
def see (t : Thread) (timestamp : Int) : Thread :=
  if timestamp > t.cliNs then
    { t with cliNs := timestamp.toNat, currentT := seconds timestamp.toNat }
  else t

/-- A periodic `timer_event` is due. -/
def fires (S : Setup) (t : Thread) : Bool :=
  t.alive && S.tickerInterval != 0 && decide (t.currentT ≥ t.tickerExpires)

def timer (S : Setup) (t : Thread) : Thread :=
  if t.fires S then { t with tickerExpires := t.currentT + S.tickerInterval } else t

/-- The plugin is terminated: the analysis thread goes on without it. -/
def terminate (S : Setup) (t : Thread) : Thread :=
  match S.kind with
  | .analysis => { t with alive := false, pc := .head }
  | .output => { t with pc := .failed }

/-- The clock for an idle message. -/
def idleClock (S : Setup) (t : Thread) : Thread :=
  match S.kind with
  | .analysis => { t with currentT := seconds t.cliNs }
  | .output => t

/-- An idle message triggers a pending timer event. The output thread does not look at the result. -/
def idle (S : Setup) (t : Thread) (fatal : Bool) : Thread :=
  let t := t.idleClock S
  if S.kind = .analysis ∧ t.fires S = true ∧ fatal = true then (t.timer S).terminate S
  else { t.timer S with pc := .head }

/-- The messages held are looked at: the oldest is offered; with none and nothing read the thread is
idle. -/
def choose (S : Setup) (t : Thread) (fatal : Bool) : Thread :=
  match t.oldest S with
  | some (q, pb) =>
    { (t.setSide q { t.side q with held := none }).see (S.timestamp pb) with pc := .offer q pb false }
  | none =>
    if (t.side .input).bytesRead = 0 ∧ (t.side .analysis).bytesRead = 0 then t.idle S fatal
    else { t with pc := .head }

/-- The call for a message returns. A `RETRY` is offered again until `stop`; the retry loop reads `stop`
again after each re-offer. -/
def answer (S : Setup) (t : Thread) (q : Queue) (pb : List UInt8) (again : Bool) (v : Verdict)
    (fatal : Bool) : Thread :=
  if t.alive = false then { t with pc := .head }
  else if v = .fatal then t.terminate S
  else if t.fires S = true ∧ fatal = true then (t.timer S).terminate S
  else if S.kind = .output ∧ v = .retry then
    let stop := if again then t.stop else t.localStop
    { t.timer S with pc := if stop then .head else .offer q pb true, localStop := stop }
  else { t.timer S with pc := .head }

end Thread

def step (S : Setup) (t : Thread) : Event → Option Thread
  | .stop =>
    if t.stop = false ∧ ∀ q ∈ [Queue.input, .analysis], S.readQueue.reads q = true →
        (S.content q).Ends (t.arrived q) then
      some { t with stop := true }
    else none
  | .arrive q e =>
    if t.stop = false ∧ t.arrived q ≤ e then
      some { t with arrived := Function.update t.arrived q e }
    else none
  | .head => if t.pc = .head then some t.head else none
  | .poll n =>
    match t.pc with
    | .poll q => some (t.poll S n q)
    | _ => none
  | .openNext =>
    match t.pc with
    | .openNext q => some (t.openNext S q)
    | _ => none
  | .choose fatal => if t.pc = .choose then some (t.choose S fatal) else none
  | .answer v fatal =>
    match t.pc with
    | .offer q pb again => some (t.answer S q pb again v fatal)
    | _ => none

/-! ## What the pieces do -/

namespace Thread

section

variable {t : Thread} {q r : Queue} {s : Side} {o : Outcome}

@[simp] theorem setSide_same : (t.setSide q s).side q = s := by
  simp only [setSide, Function.update_self]

theorem setSide_other (h : r ≠ q) : (t.setSide q s).side r = t.side r := by
  simp only [setSide, Function.update_of_ne h]

theorem leave_other (h : r ≠ q) : (t.leave q s o).side r = t.side r := by
  cases o with
  | moveOn | tryNext => exact setSide_other h
  | atEnd => exact (setSide_other h).trans (setSide_other h)

/-- The side is left as it is, but for the mark that nothing more comes. -/
theorem leave_same : (t.leave q s o).side q = { s with stopped := ((t.leave q s o).side q).stopped } := by
  cases o with
  | moveOn | tryNext =>
    have hs : (t.setSide q s).side q = s := setSide_same
    simp only [leave, hs]
  | atEnd => simp only [leave, giveUp, setSide_same]

/-- A queue is done with at its end when the thread is to stop. -/
theorem leave_stopped (h : ((t.leave q s o).side q).stopped = true) :
    s.stopped = true ∨ o = .atEnd ∧ t.localStop = true := by
  cases o with
  | moveOn | tryNext =>
    have hs : ((t.setSide q s).side q).stopped = true := h
    rw [setSide_same] at hs
    exact .inl hs
  | atEnd =>
    simp only [leave, giveUp, setSide_same, Bool.or_eq_true] at h
    refine h.imp_right fun hstops => ⟨rfl, ?_⟩
    cases q with
    | input => exact hstops
    | analysis => exact (Bool.and_eq_true_iff.mp hstops).2

@[simp] theorem leave_stop : (t.leave q s o).stop = t.stop := by cases o <;> rfl

@[simp] theorem leave_localStop : (t.leave q s o).localStop = t.localStop := by cases o <;> rfl

@[simp] theorem leave_arrived : (t.leave q s o).arrived = t.arrived := by cases o <;> rfl

@[simp] theorem leave_alive : (t.leave q s o).alive = t.alive := by cases o <;> rfl

/-- What the clocks and the timer leave alone. -/
def frame (t : Thread) : (Queue → Side) × (Queue → Checkpoint) × Bool × Bool × Bool :=
  (t.side, t.arrived, t.stop, t.localStop, t.alive)

@[simp] theorem frame_see (ts : Int) : (t.see ts).frame = t.frame := by
  unfold see
  split <;> rfl

@[simp] theorem frame_timer {S : Setup} : (t.timer S).frame = t.frame := by
  unfold timer
  split <;> rfl

@[simp] theorem frame_idleClock {S : Setup} : (t.idleClock S).frame = t.frame := by
  unfold idleClock
  split <;> rfl

theorem leave_pc : (t.leave q s o).pc = if o = .tryNext then .openNext q else after q := by
  cases o <;> rfl

theorem alive_of_frame {t' : Thread} (h : t'.frame = t.frame) : t'.alive = t.alive := by
  simp only [frame, Prod.mk.injEq] at h
  exact h.2.2.2.2

theorem alive_timer {S : Setup} : (t.timer S).alive = t.alive := alive_of_frame frame_timer

theorem alive_idleClock {S : Setup} : (t.idleClock S).alive = t.alive := alive_of_frame frame_idleClock

theorem alive_head : t.head.alive = t.alive := by
  unfold head
  split <;> rfl

theorem alive_poll {S : Setup} {n : Nat} : (t.poll S n q).alive = t.alive := by
  unfold poll
  split
  · exact leave_alive
  · rfl

end

end Thread

/-! ## What a step can do -/

section

variable {S : Setup} {t t' : Thread}

theorem step_stop : step S t .stop = some t' ↔
    (t.stop = false ∧ ∀ q ∈ [Queue.input, .analysis], S.readQueue.reads q = true →
      (S.content q).Ends (t.arrived q)) ∧ t' = { t with stop := true } := by
  rw [step, Option.ite_none_right_eq_some, Option.some.injEq, eq_comm (a := t')]

theorem step_arrive {q : Queue} {e : Checkpoint} : step S t (.arrive q e) = some t' ↔
    (t.stop = false ∧ t.arrived q ≤ e) ∧ t' = { t with arrived := Function.update t.arrived q e } := by
  rw [step, Option.ite_none_right_eq_some, Option.some.injEq, eq_comm (a := t')]

theorem step_head : step S t .head = some t' ↔ t.pc = .head ∧ t' = t.head := by
  rw [step, Option.ite_none_right_eq_some, Option.some.injEq, eq_comm (a := t')]

theorem step_poll {n : Nat} : step S t (.poll n) = some t' ↔ ∃ q, t.pc = .poll q ∧ t' = t.poll S n q := by
  cases hpc : t.pc <;> simp [step, hpc, eq_comm]

theorem step_openNext : step S t .openNext = some t' ↔ ∃ q, t.pc = .openNext q ∧ t' = t.openNext S q := by
  cases hpc : t.pc <;> simp [step, hpc, eq_comm]

theorem step_choose {fatal : Bool} :
    step S t (.choose fatal) = some t' ↔ t.pc = .choose ∧ t' = t.choose S fatal := by
  rw [step, Option.ite_none_right_eq_some, Option.some.injEq, eq_comm (a := t')]

theorem step_answer {v : Verdict} {fatal : Bool} : step S t (.answer v fatal) = some t' ↔
    ∃ q pb again, t.pc = .offer q pb again ∧ t' = t.answer S q pb again v fatal := by
  constructor
  · intro h
    simp only [step] at h
    split at h
    · rename_i q pb again hpc
      cases h
      exact ⟨q, pb, again, hpc, rfl⟩
    · cases h
  · rintro ⟨q, pb, again, hpc, rfl⟩
    simp only [step, hpc]

end

end CliThread

end Hindsight
