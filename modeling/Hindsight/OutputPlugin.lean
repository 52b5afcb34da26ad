import Hindsight.Checkpoint
import Mathlib

/-!
# Hindsight.OutputPlugin

The message loop of one output plugin (`output_message`, `update_checkpoint`,
`update_checkpoint_callback` and `input_thread` of `hs_output_plugins.c`, service build), as a
machine. The sandbox and the scheduler choose the events: which message is delivered, what
`process_message` returns, when the plugin calls `update_checkpoint`, what the clock says, when
the main thread asks for a stop.

Message positions come from the readers. The end position of a delivered message lies after
everything read from that queue before (the guard of `deliver`). Until the first file of a queue
is open the thread may give up its position and take another one (`reset`).
-/

namespace Hindsight

/-- The return codes of `lsb_heka_pm_output`; `fatal` stands for the positive ones. -/
inductive PmRet where
  | sent
  | fail
  | skip
  | retry
  | batch
  | async
  | fatal
  deriving DecidableEq, Repr

/-- What `output_message` distinguishes in its `ret` after the sandbox has returned. -/
inductive Ret where
  | done
  | retry
  | fatal
  deriving DecidableEq, Repr

/-- `read_queue`: `'b'`, `'i'` or `'a'`. -/
inductive ReadQueue where
  | both
  | input
  | analysis
  deriving DecidableEq, Repr

/-- The input queue is read when `read_queue >= 'b'`, the analysis queue when
`read_queue <= 'b'`. -/
def ReadQueue.reads : ReadQueue → Queue → Bool
  | .both, _ => true
  | .input, .input => true
  | .analysis, .analysis => true
  | _, _ => false

/-- A delivered message: the queue it was read from and where it ends there. -/
structure Msg where
  queue : Queue
  stop : Checkpoint
  deriving DecidableEq, Repr

/-- Where the plugin thread is. `again` tells a re-offer of the retry loop from the first offer of
a message. -/
inductive OpPc where
  | head
  | body
  | offer (again : Bool)
  | process (again : Bool)
  | ticker (again : Bool) (ret : Ret)
  | timer (again : Bool) (ret : Ret) (now : Nat)
  | retry
  | shutdown
  | exited
  deriving DecidableEq, Repr

/-- `hs_output_plugin`, with the locals `stop` (`localStop`) and `msg` of its thread. `running`
is `lsb_heka_is_running`. -/
structure OutputPlugin where
  readQueue : ReadQueue
  asyncLen : Nat
  asyncCp : Nat → CheckpointPair
  tickerInterval : Nat
  tickerExpires : Nat
  cp : CheckpointPair
  cur : CheckpointPair
  sequenceId : Nat
  ackSequenceId : Nat
  batching : Bool
  stop : Bool
  running : Bool
  pc : OpPc
  msg : Option Msg
  localStop : Bool
  /-- The reader of the queue has its first file open. -/
  opened : Queue → Bool

namespace OutputPlugin

/-- A plugin whose readers are positioned at `start` (`create_output_plugin`,
`add_to_output_plugins`). -/
def create (rq : ReadQueue) (asyncLen tickerInterval tickerExpires : Nat)
    (start : CheckpointPair) : OutputPlugin where
  readQueue := rq
  asyncLen := asyncLen
  asyncCp := fun _ => ⟨⟨0, 0⟩, ⟨0, 0⟩⟩
  tickerInterval := tickerInterval
  tickerExpires := tickerExpires
  cp := start
  cur := start
  sequenceId := 0
  ackSequenceId := 0
  batching := false
  stop := false
  running := true
  pc := .head
  msg := none
  localStop := false
  opened := fun _ => false

/-- `sequence_id + 1` on `uintptr_t`. -/
def nextSequenceId (p : OutputPlugin) : Nat := (p.sequenceId + 1) % 2 ^ 64

def updateCheckpoint (p : OutputPlugin) : OutputPlugin := { p with cp := p.cur }

/-- `update_checkpoint_callback`; the sequence id `0` is the null pointer. `async_cp` is allocated
when `async_len` is positive. -/
def updateCheckpointCallback (p : OutputPlugin) (seq : Nat) : OutputPlugin :=
  if seq ≠ 0 ∧ p.asyncLen ≠ 0 then
    -- the second disjunct is for a wrapped counter
    let ack := if seq > p.ackSequenceId ∨ p.sequenceId < p.ackSequenceId then seq
      else p.ackSequenceId
    let s := p.asyncCp (seq % p.asyncLen)
    { p with
      ackSequenceId := ack
      cp := { input := if s.input.passes p.cp.input then s.input else p.cp.input
              analysis := if s.analysis.passes p.cp.analysis then s.analysis
                else p.cp.analysis } }
  else if p.batching then { p.updateCheckpoint with batching := false }
  else p

/-- A matched message's read positions go into the ring slot of its sequence id. -/
def saveAsync (p : OutputPlugin) : OutputPlugin :=
  if p.asyncLen ≠ 0 then
    { p with asyncCp := Function.update p.asyncCp (p.nextSequenceId % p.asyncLen) p.cur }
  else p

/-- The part of `output_message` between the return of `process_message` and the checkpoint. -/
def pmReturn (p : OutputPlugin) : PmRet → OutputPlugin × Ret
  | .sent => ({ p with batching := false, sequenceId := p.nextSequenceId }, .done)
  | .fail => ({ p with sequenceId := p.nextSequenceId }, .done)
  | .skip => ({ p with sequenceId := p.nextSequenceId }, .done)
  | .retry => (p, .retry)
  | .batch => ({ p with batching := true, sequenceId := p.nextSequenceId }, .done)
  | .async =>
    if p.asyncLen = 0 then
      -- "cannot use async checkpointing without a configured buffer"
      ({ p with running := false, sequenceId := p.nextSequenceId }, .fatal)
    else ({ p with sequenceId := p.nextSequenceId }, .done)
  | .fatal => ({ p with running := false }, .fatal)

def pending (p : OutputPlugin) : Bool := p.asyncLen != 0 && p.sequenceId != p.ackSequenceId

/-- The test for advancing the checkpoint: not fatal, not retrying, no batch, nothing pending. -/
def advances (p : OutputPlugin) (ret : Ret) : Bool := ret == .done && !p.batching && !p.pending

def advance (p : OutputPlugin) (ret : Ret) : OutputPlugin :=
  if p.advances ret then p.updateCheckpoint else p

/-- `output_message` returns to `input_thread`. For an idle message the result is not looked at. A
`RETRY` is offered again until `stop`, which the retry loop reads again after each re-offer. -/
def finish (p : OutputPlugin) (again : Bool) (ret : Ret) : OutputPlugin :=
  match p.msg with
  | none => { p with pc := .head }
  | some _ =>
    match ret with
    | .fatal => { p with pc := .shutdown }
    | .done => { p with pc := .head, msg := none }
    | .retry =>
      let stop := if again then p.stop else p.localStop
      if stop then { p with pc := .head, msg := none, localStop := stop }
      else { p with pc := .retry, localStop := stop }

/-- The plugin's Lua code is running: `process_message` or a `timer_event`. -/
def inPlugin (p : OutputPlugin) : Bool :=
  p.running && match p.pc with
    | .process _ | .timer _ _ _ | .shutdown => true
    | _ => false

end OutputPlugin

inductive OpEvent where
  | stop
  | head
  | openFirst (q : Queue)
  | reset (q : Queue) (c : Checkpoint)
  | deliver (q : Queue) (e : Checkpoint)
  | idle
  | nothing
  | matcher (matched : Bool)
  | callback (seq : Nat)
  | pmReturn (r : PmRet)
  | ticker (now : Nat)
  | timerReturn (fatal : Bool)
  | reoffer
  | shutdownReturn
  deriving DecidableEq, Repr

namespace OutputPlugin

def step (p : OutputPlugin) : OpEvent → Option OutputPlugin
  | .stop => some { p with stop := true }
  | .head =>
    if p.pc = .head then
      if p.localStop then some { p with pc := .shutdown }
      else some { p with localStop := p.stop, pc := .body }
    else none
  | .openFirst q =>
    if p.pc = .body ∧ p.readQueue.reads q = true ∧ p.opened q = false then
      some { p with opened := Function.update p.opened q true }
    else none
  | .reset q c =>
    if p.pc = .body ∧ p.readQueue.reads q = true ∧ p.opened q = false then
      some { p with cur := p.cur.set q c, cp := p.cp.set q c }
    else none
  | .deliver q e =>
    if p.pc = .body ∧ p.readQueue.reads q = true ∧ p.opened q = true ∧ p.cur.get q < e then
      some { p with cur := p.cur.set q e, msg := some ⟨q, e⟩, pc := .offer false }
    else none
  | .idle => if p.pc = .body then some { p with msg := none, pc := .ticker false .done } else none
  | .nothing => if p.pc = .body then some { p with pc := .head } else none
  | .matcher matched =>
    match p.pc with
    | .offer again =>
      if matched then some { p.saveAsync with pc := .process again }
      else some { p.advance .done with pc := .ticker again .done }
    | _ => none
  | .callback seq => if p.inPlugin then some (p.updateCheckpointCallback seq) else none
  | .pmReturn r =>
    match p.pc with
    | .process again =>
      let (p', ret) := p.pmReturn r
      some { p'.advance ret with pc := .ticker again ret }
    | _ => none
  | .ticker now =>
    match p.pc with
    | .ticker again ret =>
      if ret ≠ .fatal ∧ p.tickerInterval ≠ 0 ∧ now ≥ p.tickerExpires then
        some { p with pc := .timer again ret now }
      else some (p.finish again ret)
    | _ => none
  | .timerReturn fatal =>
    match p.pc with
    | .timer again ret now =>
      let p' := { p with tickerExpires := now + p.tickerInterval, running := p.running && !fatal }
      some (p'.finish again (if fatal then .fatal else ret))
    | _ => none
  | .reoffer => if p.pc = .retry then some { p with pc := .offer true } else none
  | .shutdownReturn => if p.pc = .shutdown then some { p with pc := .exited } else none

/-! ## What the pieces do -/

/-- The thread is busy with a message that has no final answer yet. -/
def current (p : OutputPlugin) : Bool :=
  match p.pc with
  | .offer _ | .process _ | .retry => true
  | .ticker _ ret | .timer _ ret _ => ret != .done
  | _ => false

/-- Some delivered message may be without final answer: the current one, or one given up by a
stop or a fatal error. -/
def held (p : OutputPlugin) : Bool :=
  match p.pc with
  | .head => p.localStop
  | .shutdown | .exited => true
  | _ => current p

/-- What the checkpoint logic reads and writes. -/
def core (p : OutputPlugin) :
    Nat × (Nat → CheckpointPair) × CheckpointPair × CheckpointPair × Nat × Nat × Bool ×
      (Queue → Bool) :=
  (p.asyncLen, p.asyncCp, p.cp, p.cur, p.sequenceId, p.ackSequenceId, p.batching, p.opened)

/-- The events that only move the thread on: loop control, the clock, returns of the sandbox that
carry no verdict. -/
def control : OpEvent → Bool
  | .stop | .head | .idle | .nothing | .ticker _ | .timerReturn _ | .reoffer
  | .shutdownReturn => true
  | _ => false

theorem finish_frame (p : OutputPlugin) (again : Bool) (ret : Ret) :
    ∃ pc msg stop, p.finish again ret = { p with pc := pc, msg := msg, localStop := stop } := by
  unfold finish
  split
  · exact ⟨_, _, _, rfl⟩
  · split
    · exact ⟨_, _, _, rfl⟩
    · exact ⟨_, _, _, rfl⟩
    · simp only
      split <;> split <;> exact ⟨_, _, _, rfl⟩

/-- What a control event does, with where the thread is. -/
inductive Control (p : OutputPlugin) : OpEvent → OutputPlugin → Prop where
  | stop : Control p .stop { p with stop := true }
  | leave (hpc : p.pc = .head) (hstop : p.localStop = true) :
    Control p .head { p with pc := .shutdown }
  | enter (hpc : p.pc = .head) (hstop : p.localStop = false) :
    Control p .head { p with localStop := p.stop, pc := .body }
  | idle (hpc : p.pc = .body) : Control p .idle { p with msg := none, pc := .ticker false .done }
  | nothing (hpc : p.pc = .body) : Control p .nothing { p with pc := .head }
  | timer {again : Bool} {ret : Ret} {now : Nat} (hpc : p.pc = .ticker again ret) :
    Control p (.ticker now) { p with pc := .timer again ret now }
  | finish {again : Bool} {ret : Ret} {now : Nat} (hpc : p.pc = .ticker again ret) :
    Control p (.ticker now) (p.finish again ret)
  | timerReturn {again : Bool} {ret : Ret} {now : Nat} (hpc : p.pc = .timer again ret now)
      (fatal : Bool) :
    Control p (.timerReturn fatal)
      ({ p with
        tickerExpires := now + p.tickerInterval
        running := p.running && !fatal }.finish again (if fatal then .fatal else ret))
  | reoffer (hpc : p.pc = .retry) : Control p .reoffer { p with pc := .offer true }
  | shutdownReturn (hpc : p.pc = .shutdown) : Control p .shutdownReturn { p with pc := .exited }

theorem control_cases {p p' : OutputPlugin} {e : OpEvent} (h : p.step e = some p')
    (he : control e = true) : Control p e p' := by
  cases e with
  | openFirst | reset | deliver | matcher | callback | pmReturn => cases he
  | stop =>
    cases h
    exact .stop
  | head =>
    simp only [step] at h
    split at h
    · rename_i hpc
      split at h
      · rename_i hstop
        cases h
        exact .leave hpc hstop
      · rename_i hstop
        cases h
        exact .enter hpc (by simpa using hstop)
    · cases h
  | idle =>
    obtain ⟨hpc, hp⟩ := Option.ite_none_right_eq_some.mp h
    cases hp
    exact .idle hpc
  | nothing =>
    obtain ⟨hpc, hp⟩ := Option.ite_none_right_eq_some.mp h
    cases hp
    exact .nothing hpc
  | reoffer =>
    obtain ⟨hpc, hp⟩ := Option.ite_none_right_eq_some.mp h
    cases hp
    exact .reoffer hpc
  | shutdownReturn =>
    obtain ⟨hpc, hp⟩ := Option.ite_none_right_eq_some.mp h
    cases hp
    exact .shutdownReturn hpc
  | ticker now =>
    simp only [step] at h
    split at h
    · rename_i again ret hpc
      split at h
      · cases h
        exact .timer hpc
      · cases h
        exact .finish hpc
    · cases h
  | timerReturn fatal =>
    simp only [step] at h
    split at h
    · rename_i again ret now hpc
      cases h
      exact .timerReturn hpc fatal
    · cases h

/-- What the control events can touch. -/
theorem control_frame {p p' : OutputPlugin} {e : OpEvent} (h : p.step e = some p')
    (he : control e = true) : ∃ pc msg stop localStop expires running, p' = { p with
      pc := pc, msg := msg, stop := stop, localStop := localStop, tickerExpires := expires,
      running := running } := by
  cases control_cases h he with
  | stop | leave | enter | idle | nothing | timer | reoffer | shutdownReturn =>
    exact ⟨_, _, _, _, _, _, rfl⟩
  | finish hpc =>
    obtain ⟨pc, msg, stop, hf⟩ := finish_frame p _ _
    exact ⟨pc, msg, p.stop, stop, p.tickerExpires, p.running, hf⟩
  | timerReturn hpc fatal =>
    obtain ⟨pc, msg, stop, hf⟩ := finish_frame _ _ _
    exact ⟨pc, msg, p.stop, stop, _, _, hf⟩

theorem step_control {p p' : OutputPlugin} {e : OpEvent} (h : p.step e = some p')
    (he : control e = true) : p'.core = p.core := by
  obtain ⟨pc, msg, stop, localStop, expires, running, rfl⟩ := control_frame h he
  rfl

/-- `finish` on the answer `ret'` of a call of `output_message` that may have ended with a failing
timer event. -/
theorem finish_held {p : OutputPlugin} {again : Bool} {ret ret' : Ret}
    (hret : ret' = ret ∨ ret' = .fatal) (hmsg : ret ≠ .done → p.msg ≠ none) :
    (held (p.finish again ret') = false → ret = .done) ∧
      (current (p.finish again ret') = true →
        ret ≠ .done ∧ (p.finish again ret').msg = p.msg) := by
  unfold finish
  cases hm : p.msg with
  | none =>
    have hdone : ret = .done := by
      by_contra hne
      exact hmsg hne hm
    simp [hdone, current]
  | some m =>
    cases ret' with
    | done =>
      obtain rfl | h := hret
      · simp [current]
      · cases h
    | fatal => simp [held, current]
    | retry =>
      obtain rfl | h := hret
      · simp only
        split <;> split <;> simp_all [held, current]
      · cases h

/-- The control events neither answer a message nor take one up. -/
theorem control_held {p p' : OutputPlugin} {e : OpEvent} (h : p.step e = some p')
    (he : control e = true) (hmsg : current p = true → p.msg ≠ none) :
    (held p' = false → held p = false) ∧
      (current p' = true → current p = true ∧ p'.msg = p.msg) := by
  cases control_cases h he with
  | stop => exact ⟨id, fun hc => ⟨hc, rfl⟩⟩
  | leave | shutdownReturn => simp [held, current]
  | enter hpc hstop => simp [held, current, hpc, hstop]
  | idle hpc | nothing hpc | timer hpc | reoffer hpc => simp [held, current, hpc]
  | finish hpc =>
    simp only [current, hpc, bne_iff_ne] at hmsg
    simp only [held, current, hpc, bne_eq_false_iff_eq, bne_iff_ne]
    exact finish_held (.inl rfl) hmsg
  | @timerReturn again ret now hpc fatal =>
    simp only [current, hpc, bne_iff_ne] at hmsg
    have hret : (if fatal then Ret.fatal else ret) = ret ∨
        (if fatal then Ret.fatal else ret) = .fatal := by
      cases fatal
      · exact .inl rfl
      · exact .inr rfl
    simp only [held, current, hpc, bne_eq_false_iff_eq, bne_iff_ne]
    exact finish_held hret hmsg

theorem msg_finish (p : OutputPlugin) (again : Bool) (ret : Ret) :
    (p.finish again ret).msg = p.msg ∨ (p.finish again ret).msg = none := by
  unfold finish
  split
  · exact .inl rfl
  · split
    · exact .inl rfl
    · exact .inr rfl
    · simp only
      split <;> split <;> first | exact .inl rfl | exact .inr rfl

/-- The control events take up no message. -/
theorem control_msg {p p' : OutputPlugin} {e : OpEvent} (h : p.step e = some p')
    (he : control e = true) : p'.msg = p.msg ∨ p'.msg = none := by
  cases control_cases h he with
  | stop | leave | enter | nothing | timer | reoffer | shutdownReturn => exact .inl rfl
  | idle => exact .inr rfl
  | finish => exact msg_finish p _ _
  | timerReturn => exact msg_finish _ _ _

/-- `output_message` does not return into `process_message`. -/
theorem finish_process (p : OutputPlugin) (again : Bool) (ret : Ret) (a : Bool) :
    (p.finish again ret).pc ≠ .process a := by
  unfold finish
  split
  · simp
  · split
    · simp
    · simp
    · simp only
      split <;> split <;> simp

/-- No control event starts an offer. -/
theorem control_process {p p' : OutputPlugin} {e : OpEvent} (h : p.step e = some p')
    (he : control e = true) {again : Bool} (hpc : p'.pc = .process again) :
    p.pc = .process again := by
  cases control_cases h he with
  | stop => exact hpc
  | leave | enter | idle | nothing | timer | reoffer | shutdownReturn => cases hpc
  | finish => exact absurd hpc (finish_process _ _ _ _)
  | timerReturn => exact absurd hpc (finish_process _ _ _ _)

theorem step_openFirst {p p' : OutputPlugin} {q : Queue} (h : p.step (.openFirst q) = some p') :
    p' = { p with opened := Function.update p.opened q true } := by
  simp only [step, Option.ite_none_right_eq_some, Option.some.injEq] at h
  exact h.2.symm

theorem step_reset {p p' : OutputPlugin} {q : Queue} {c : Checkpoint}
    (h : p.step (.reset q c) = some p') :
    p.opened q = false ∧ p' = { p with cur := p.cur.set q c, cp := p.cp.set q c } := by
  simp only [step, Option.ite_none_right_eq_some, Option.some.injEq] at h
  exact ⟨h.1.2.2, h.2.symm⟩

theorem step_deliver {p p' : OutputPlugin} {q : Queue} {e : Checkpoint}
    (h : p.step (.deliver q e) = some p') :
    p.pc = .body ∧ p.opened q = true ∧ p.cur.get q < e ∧
      p' = { p with cur := p.cur.set q e, msg := some ⟨q, e⟩, pc := .offer false } := by
  simp only [step, Option.ite_none_right_eq_some, Option.some.injEq] at h
  exact ⟨h.1.1, h.1.2.2.1, h.1.2.2.2, h.2.symm⟩

theorem step_matcher {p p' : OutputPlugin} {matched : Bool}
    (h : p.step (.matcher matched) = some p') :
    ∃ again, p.pc = .offer again ∧
      p' = if matched then { p.saveAsync with pc := .process again }
        else { p.advance .done with pc := .ticker again .done } := by
  simp only [step] at h
  split at h
  · refine ⟨_, ‹_›, ?_⟩
    cases matched <;> cases h <;> rfl
  · cases h

theorem step_callback {p p' : OutputPlugin} {seq : Nat} (h : p.step (.callback seq) = some p') :
    p.inPlugin = true ∧ p' = p.updateCheckpointCallback seq := by
  simp only [step, Option.ite_none_right_eq_some, Option.some.injEq] at h
  exact ⟨h.1, h.2.symm⟩

theorem step_pmReturn {p p' : OutputPlugin} {r : PmRet} (h : p.step (.pmReturn r) = some p') :
    ∃ again, p.pc = .process again ∧
      p' = { (p.pmReturn r).1.advance (p.pmReturn r).2 with
             pc := .ticker again (p.pmReturn r).2 } := by
  simp only [step] at h
  split at h
  · exact ⟨_, ‹_›, by cases h; rfl⟩
  · cases h

/-- An acknowledgement moves both components of the checkpoint forward to the saved position. -/
theorem updateCheckpointCallback_ack {p : OutputPlugin} {seq : Nat} (hs : seq ≠ 0)
    (hl : p.asyncLen ≠ 0) :
    p.updateCheckpointCallback seq =
      { p with
        ackSequenceId := if seq > p.ackSequenceId ∨ p.sequenceId < p.ackSequenceId then seq
          else p.ackSequenceId
        cp := p.cp.merge (p.asyncCp (seq % p.asyncLen)) } := by
  simp only [updateCheckpointCallback, if_pos (And.intro hs hl), Checkpoint.ite_passes]
  rfl

theorem updateCheckpointCallback_null {p : OutputPlugin} {seq : Nat}
    (h : ¬(seq ≠ 0 ∧ p.asyncLen ≠ 0)) :
    p.updateCheckpointCallback seq =
      if p.batching then { p with cp := p.cur, batching := false } else p := by
  simp only [updateCheckpointCallback, if_neg h]
  rfl

/-- The callback runs inside a call of the sandbox and moves nothing of the thread. -/
theorem updateCheckpointCallback_thread (p : OutputPlugin) (seq : Nat) :
    (p.updateCheckpointCallback seq).pc = p.pc ∧
      (p.updateCheckpointCallback seq).localStop = p.localStop ∧
      (p.updateCheckpointCallback seq).msg = p.msg := by
  by_cases h : seq ≠ 0 ∧ p.asyncLen ≠ 0
  · rw [updateCheckpointCallback_ack h.1 h.2]
    exact ⟨rfl, rfl, rfl⟩
  · rw [updateCheckpointCallback_null h]
    split <;> exact ⟨rfl, rfl, rfl⟩

theorem advance_eq (p : OutputPlugin) (ret : Ret) :
    p.advance ret = if p.advances ret then { p with cp := p.cur } else p := rfl

theorem msg_saveAsync (p : OutputPlugin) : p.saveAsync.msg = p.msg := by
  unfold saveAsync
  split <;> rfl

theorem msg_advance (p : OutputPlugin) (ret : Ret) : (p.advance ret).msg = p.msg := by
  rw [advance_eq]
  split <;> rfl

theorem pmReturn_thread (p : OutputPlugin) (r : PmRet) :
    (p.pmReturn r).1.msg = p.msg ∧ (p.pmReturn r).1.localStop = p.localStop := by
  cases r with
  | async => simp only [pmReturn]; split <;> exact ⟨rfl, rfl⟩
  | _ => exact ⟨rfl, rfl⟩

/-- A thread that is busy with a message has it in hand. -/
theorem step_busy {p p' : OutputPlugin} {e : OpEvent} (hb : current p = true → p.msg ≠ none)
    (h : p.step e = some p') : current p' = true → p'.msg ≠ none := by
  by_cases hctl : control e = true
  · intro hc
    obtain ⟨hc, hm⟩ := (control_held h hctl hb).2 hc
    rw [hm]
    exact hb hc
  cases e with
  | stop | head | idle | nothing | ticker | timerReturn | reoffer | shutdownReturn =>
    exact absurd rfl hctl
  | openFirst q =>
    rw [step_openFirst h]
    exact hb
  | reset q c =>
    rw [(step_reset h).2]
    exact hb
  | deliver q c =>
    obtain ⟨-, -, -, rfl⟩ := step_deliver h
    exact fun _ => Option.some_ne_none _
  | callback seq =>
    obtain ⟨hpc, -, hm⟩ := updateCheckpointCallback_thread p seq
    rw [(step_callback h).2, current, hpc, hm]
    exact hb
  | matcher matched =>
    obtain ⟨again, hpc, rfl⟩ := step_matcher h
    have hmsg : p.msg ≠ none := hb (by simp [current, hpc])
    cases matched with
    | true => exact fun _ => (msg_saveAsync p).symm ▸ hmsg
    | false => exact fun _ => (msg_advance p .done).symm ▸ hmsg
  | pmReturn r =>
    obtain ⟨again, hpc, rfl⟩ := step_pmReturn h
    have hmsg : p.msg ≠ none := hb (by simp [current, hpc])
    intro _
    change ((p.pmReturn r).1.advance (p.pmReturn r).2).msg ≠ none
    rw [msg_advance, (pmReturn_thread p r).1]
    exact hmsg

end OutputPlugin

end Hindsight
