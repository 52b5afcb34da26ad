import Hindsight.Lib.WriteAhead
import Hindsight.Pipeline

/-!
# Hindsight.AnalysisDelivery

The checkpoints of the analysis threads against the analysis queue. An observer records every
message a plugin injects while a message is analyzed: the thread, the end of the analyzed message,
and the place of the frame.

* `Positions`: what was injected for messages at or before a stored position is on disk, but for the
  thread whose position was copied after the last flush. One lemma for each thing that happens to the
  positions.
* `Inv`: so it is in the service, as long as no thread goes back (`Admits`).
-/

namespace Hindsight

namespace AnalysisDelivery

structure Injected (π : Type) where
  thread : Nat
  stop : Checkpoint
  place : π

/-! ## Positions -/

section

variable {π : Type}

/-- The records a stored position of thread `i` stands for. -/
def covered (l : List (Injected π)) (threads : Nat → Option Checkpoint) (i : Nat) : Set (Injected π) :=
  {r | r ∈ l ∧ r.thread = i ∧ ∃ c, threads i = some c ∧ r.stop ≤ c}

/-- The threads, their positions in the store and in `hindsight.cp`, and the frames that are on disk. A
thread analyzes what comes after its position, and no copy of a position is ahead of the thread. -/
structure Positions (threads : Nat → AnalysisThread) (stored persisted : Nat → Option Checkpoint)
    (dirty : Set Nat) (durable : Set (Injected π)) (l : List (Injected π)) : Prop where
  stored_le : ∀ i c, stored i = some c → c ≤ (threads i).cp
  persisted_le : ∀ i c, persisted i = some c → c ≤ (threads i).cp
  current : ∀ i e, (threads i).msg = some e → (threads i).cp < e
  ahead : WriteAhead.Ahead durable (covered l stored) (covered l persisted) dirty

variable {threads : Nat → AnalysisThread} {stored persisted : Nat → Option Checkpoint}
  {dirty : Set Nat} {durable durable' : Set (Injected π)} {l : List (Injected π)}

/-- A new record belongs to a message after the thread's position, and so to no stored one. -/
theorem covered_cons {r : Injected π} {threads : Nat → Option Checkpoint}
    (h : ∀ c, threads r.thread = some c → c < r.stop) :
    covered (r :: l) threads = covered l threads := by
  funext i
  ext x
  constructor
  · rintro ⟨hx, hi, c, hc, hle⟩
    rcases List.mem_cons.mp hx with rfl | hx
    · subst hi
      exact absurd hle (not_le.mpr (h c hc))
    · exact ⟨hx, hi, c, hc, hle⟩
  · rintro ⟨hx, hrest⟩
    exact ⟨List.mem_cons_of_mem _ hx, hrest⟩

theorem covered_update {threads : Nat → Option Checkpoint} {i j : Nat} {c : Option Checkpoint}
    (h : j ≠ i) : covered l (Function.update threads i c) j = covered l threads j := by
  simp only [covered, Function.update_of_ne h]

namespace Positions

theorem grow (h : Positions threads stored persisted dirty durable l) (hsub : durable ⊆ durable') :
    Positions threads stored persisted dirty durable' l :=
  ⟨h.stored_le, h.persisted_le, h.current, h.ahead.grow hsub⟩

/-- A thread goes on, or finds a message after its position. -/
theorem thread {i : Nat} {t : AnalysisThread} (h : Positions threads stored persisted dirty durable l)
    (hle : (threads i).cp ≤ t.cp) (hmsg : ∀ e, t.msg = some e → t.cp < e) :
    Positions (Function.update threads i t) stored persisted dirty durable l := by
  have hcp : ∀ j, (threads j).cp ≤ (Function.update threads i t j).cp := by
    intro j
    by_cases hj : j = i
    · subst hj; simpa using hle
    · simp [hj]
  refine ⟨fun j c hc => (h.stored_le j c hc).trans (hcp j),
    fun j c hc => (h.persisted_le j c hc).trans (hcp j), fun j e he => ?_, h.ahead⟩
  by_cases hj : j = i
  · subst hj
    simp only [Function.update_self] at he ⊢
    exact hmsg e he
  · simp only [Function.update_of_ne hj] at he ⊢
    exact h.current j e he

/-- The message that was analyzed ends after the old position. -/
theorem analyzed {i : Nat} {e : Checkpoint} (h : Positions threads stored persisted dirty durable l)
    (hmsg : (threads i).msg = some e) :
    Positions (Function.update threads i ⟨e, none⟩) stored persisted dirty durable l :=
  h.thread (h.current i e hmsg).le fun _ he => by cases he

/-- What is injected for the message under analysis is after all copies of the position. -/
theorem record {i : Nat} {e : Checkpoint} (h : Positions threads stored persisted dirty durable l)
    (hmsg : (threads i).msg = some e) (place : π) :
    Positions threads stored persisted dirty durable (⟨i, e, place⟩ :: l) := by
  have hlt := h.current i e hmsg
  refine ⟨h.stored_le, h.persisted_le, h.current, ?_⟩
  rw [covered_cons fun c hc => (h.stored_le i c hc).trans_lt hlt,
    covered_cons fun c hc => (h.persisted_le i c hc).trans_lt hlt]
  exact h.ahead

/-- The position of a thread goes into the store. -/
theorem copy (h : Positions threads stored persisted ∅ durable l) (i : Nat) :
    Positions threads (Function.update stored i (some (threads i).cp)) persisted {i} durable l := by
  refine ⟨fun j c hc => ?_, h.persisted_le, h.current,
    h.ahead.copy (Set.empty_subset _) fun j hj => (covered_update hj).subset⟩
  by_cases hj : j = i
  · subst hj
    simp only [Function.update_self, Option.some.injEq] at hc
    exact hc.symm.le
  · rw [Function.update_of_ne hj] at hc
    exact h.stored_le j c hc

/-- All that was injected reaches the disk. -/
theorem flush (h : Positions threads stored persisted dirty durable l) (hsub : durable ⊆ durable')
    (hall : ∀ r ∈ l, r ∈ durable') : Positions threads stored persisted ∅ durable' l :=
  ⟨h.stored_le, h.persisted_le, h.current, h.ahead.flush hsub fun _ _ r hr => hall r hr.1⟩

theorem persist (h : Positions threads stored persisted ∅ durable l) :
    Positions threads stored stored ∅ durable l :=
  ⟨h.stored_le, h.stored_le, h.current, h.ahead.persist⟩

theorem safe (h : Positions threads stored persisted dirty durable l) {r : Injected π} (hr : r ∈ l)
    {c : Checkpoint} (hc : persisted r.thread = some c) (hle : r.stop ≤ c) : r ∈ durable :=
  h.ahead.persisted r.thread ⟨hr, rfl, c, hc, hle⟩

/-- The threads start at the positions that are loaded. -/
theorem start (h : ∀ i c, stored i = some c → c ≤ (threads i).cp)
    (hidle : ∀ i, (threads i).msg = none) : Positions threads stored stored ∅ durable [] := by
  have hnone : ∀ i, covered ([] : List (Injected π)) stored i = ∅ := by
    intro i
    simp [covered]
  refine ⟨h, h, fun i e he => ?_, ⟨fun i _ => ?_, fun i => ?_⟩⟩
  · rw [hidle i] at he
    cases he
  · exact (hnone i).subset.trans (Set.empty_subset _)
  · exact (hnone i).subset.trans (Set.empty_subset _)

end Positions

end

/-! ## The service -/

variable {δ : Type} (cfg : HsConfig) (varint : Nat → List UInt8) (shape : Shape)

/-- The observer. -/
def see (s : Service δ) (l : List (Injected Output.Written)) :
    ServiceEvent δ → List (Injected Output.Written)
  | .analyzeInject i pb _ =>
    match (s.threads i).msg with
    | some e => ⟨i, e, s.analysisQueue.next (frame varint pb)⟩ :: l
    | none => l
  | _ => l

/-- A thread finds messages after its position, and is not set back. -/
def Admits (s : Service δ) : ServiceEvent δ → Prop
  | .find i e => (s.threads i).cp < e
  | .reset i c => (s.threads i).cp ≤ c
  | _ => True

def durable (o : Output) : Set (Injected Output.Written) := {r | o.OnDisk r.place}

/-- The thread whose position was copied after the last flush. -/
def dirty : WriterPc → Set Nat
  | .analysisFlush i => {i}
  | _ => ∅

structure Inv (s : Service δ) (l : List (Injected Output.Written)) : Prop where
  isOpen : s.analysisQueue.Open
  inQueue : ∀ r ∈ l, s.analysisQueue.InQueue r.place
  positions : Positions s.threads s.store.threads s.persisted.threads (dirty s.pc)
    (durable s.analysisQueue) l

section

variable {cfg : HsConfig} {varint : Nat → List UInt8} {shape : Shape} {s s' : Service δ}
  {l : List (Injected Output.Written)}

theorem durable_mono {o o' : Output} (h : Output.Grows o o') : durable o ⊆ durable o' :=
  fun _ hr => Output.OnDisk.mono hr h

/-- Steps of the other threads, and those of the writer that copy and flush nothing here. -/
theorem frame_inv (hI : Inv s l) (hopen : s'.analysisQueue.Open)
    (hgrows : Output.Grows s.analysisQueue s'.analysisQueue) (hthreads : s'.threads = s.threads)
    (hstore : s'.store.threads = s.store.threads)
    (hpersisted : s'.persisted.threads = s.persisted.threads)
    (hdirty : dirty s'.pc = dirty s.pc) : Inv s' l where
  isOpen := hopen
  inQueue r hr := (hI.inQueue r hr).mono hgrows
  positions := by
    rw [hthreads, hstore, hpersisted, hdirty]
    exact hI.positions.grow (durable_mono hgrows)

theorem inject_inv {i : Nat} {pb : List UInt8} {env : InjectEnv} (hI : Inv s l) :
    Inv { s with
      analysisQueue := appendFrame cfg varint s.analysisQueue pb
      analysisBp := (injectFrame cfg varint env s.analysisQueue s.analysisBp pb).2.1 }
      (see varint s l (.analyzeInject i pb env)) := by
  have hgrows : Output.Grows s.analysisQueue (appendFrame cfg varint s.analysisQueue pb) :=
    grows_append hI.isOpen pb
  have hframe : Inv { s with
      analysisQueue := appendFrame cfg varint s.analysisQueue pb
      analysisBp := (injectFrame cfg varint env s.analysisQueue s.analysisBp pb).2.1 } l :=
    frame_inv hI (open_appendFrame hI.isOpen pb) hgrows rfl rfl rfl rfl
  simp only [see]
  cases hmsg : (s.threads i).msg with
  | none => exact hframe
  | some e =>
    refine ⟨hframe.isOpen, fun r hr => ?_, hframe.positions.record hmsg _⟩
    rcases List.mem_cons.mp hr with rfl | hr
    · exact inQueue_appendFrame hI.isOpen pb
    · exact hframe.inQueue r hr

variable (shape) in
/-- Which positions are stored after a step of the writer. -/
theorem threads_writeStep (s : Service δ) :
    (s.writeStep shape).store.threads = match s.pc with
      | .analysisStats i =>
        if i < shape.threadCnt then Function.update s.store.threads i (some (s.threads i).cp)
        else s.store.threads
      | _ => s.store.threads := by
  unfold Service.writeStep Service.inputStats Service.outputStats
  cases s.pc with
  | inputStats i => simp only; split <;> (try split) <;> rfl
  | outputStats j => simp only; split <;> (try split) <;> rfl
  | analysisStats i => simp only; split <;> rfl
  | _ => rfl

variable (shape) in
theorem dirty_writeStep (s : Service δ) :
    dirty (s.writeStep shape).pc = match s.pc with
      | .analysisStats i => if i < shape.threadCnt then {i} else ∅
      | _ => ∅ := by
  unfold Service.writeStep
  cases s.pc with
  | inputStats i | outputStats i | analysisStats i => simp only; split <;> rfl
  | _ => rfl

/-- The writer copies a position, flushes the queue for it, and in the end persists the store. -/
theorem write_inv (hI : Inv s l) : Inv (s.writeStep shape) l := by
  obtain ⟨hopen, hgrows⟩ := Service.writeStep_analysisQueue shape hI.isOpen
  obtain ⟨-, hthreads, -⟩ := Service.plugins_writeStep shape s
  have hstore := threads_writeStep shape s
  have hpersisted := Service.persisted_writeStep shape s
  have hdirty := dirty_writeStep shape s
  have hqueue : ∀ r ∈ l, (s.writeStep shape).analysisQueue.InQueue r.place :=
    fun r hr => (hI.inQueue r hr).mono hgrows
  have hpos := hI.positions.grow (durable_mono hgrows)
  cases hpc : s.pc with
  | analysisStats i =>
    simp only [hpc, reduceCtorEq, if_false] at hstore hpersisted hdirty hpos
    by_cases hi : i < shape.threadCnt
    · rw [if_pos hi] at hstore hdirty
      refine ⟨hopen, hqueue, ?_⟩
      rw [hthreads, hstore, hpersisted, hdirty]
      exact hpos.copy i
    · rw [if_neg hi] at hstore hdirty
      exact frame_inv hI hopen hgrows hthreads hstore (by rw [hpersisted])
        (by rw [hdirty, hpc]; rfl)
  | analysisFlush i =>
    simp only [hpc, reduceCtorEq, if_false] at hstore hpersisted hdirty
    have hflush : (s.writeStep shape).analysisQueue = s.analysisQueue.fflush := by
      rw [Service.analysisQueue_writeStep, hpc]
    refine ⟨hopen, hqueue, ?_⟩
    rw [hthreads, hstore, hpersisted, hdirty]
    refine hI.positions.flush (durable_mono hgrows) fun r hr => ?_
    rw [durable, hflush]
    exact Output.InQueue.fflush (hI.inQueue r hr) hI.isOpen
  | persist =>
    simp only [hpc, if_true] at hstore hpersisted hdirty hpos
    refine ⟨hopen, hqueue, ?_⟩
    rw [hthreads, hstore, hpersisted, hdirty]
    exact hpos.persist
  | idle | inputStats | inputFlush | outputStats | publishInput | publishAnalysis =>
    simp only [hpc, reduceCtorEq, if_false] at hstore hpersisted hdirty
    exact frame_inv hI hopen hgrows hthreads hstore (by rw [hpersisted])
      (by rw [hdirty, hpc]; rfl)

theorem step_inv {e : ServiceEvent δ} (hI : Inv s l) (hadm : Admits s e)
    (h : s.step cfg varint shape e = some s') : Inv s' (see varint s l e) := by
  obtain ⟨hopen, hgrows⟩ := Service.step_analysisQueue h hI.isOpen
  cases e with
  | write => cases h; exact write_inv hI
  | find i e =>
    obtain ⟨-, rfl⟩ := Service.step_find h
    exact ⟨hI.isOpen, hI.inQueue, hI.positions.thread le_rfl fun e' he => by cases he; exact hadm⟩
  | reset i c =>
    obtain ⟨-, rfl⟩ := Service.step_reset h
    exact ⟨hI.isOpen, hI.inQueue, hI.positions.thread hadm fun e' he => by cases he⟩
  | analyzed i =>
    obtain ⟨e, he, rfl⟩ := Service.step_analyzed h
    exact ⟨hI.isOpen, hI.inQueue, hI.positions.analyzed he⟩
  | analyzeInject i pb env => cases h; exact inject_inv hI
  | spill q n =>
    cases q <;> cases h <;> exact frame_inv hI hopen hgrows rfl rfl rfl rfl
  | inject i pb d str =>
    obtain ⟨_, -, -, rfl⟩ := Service.step_inject h
    exact frame_inv hI hopen hgrows rfl rfl rfl rfl
  | append i env =>
    obtain ⟨_, _, -, rfl⟩ := Service.step_append h
    exact frame_inv hI hopen hgrows rfl rfl rfl rfl
  | inputExit i =>
    obtain ⟨_, -, rfl⟩ := Service.step_inputExit h
    exact frame_inv hI hopen hgrows rfl rfl rfl rfl
  | output j e =>
    obtain ⟨_, _, -, -, rfl⟩ := Service.step_output h
    exact frame_inv hI hopen hgrows rfl rfl rfl rfl
  | outputInject j pb env =>
    obtain ⟨_, -, -, rfl⟩ := Service.step_outputInject h
    exact frame_inv hI hopen hgrows rfl rfl rfl rfl
  | outputExit j =>
    obtain ⟨_, -, -, rfl⟩ := Service.step_outputExit h
    exact frame_inv hI hopen hgrows rfl rfl rfl rfl

/-- What was injected for a message at or before the persisted position of its thread is on disk. -/
theorem Inv.safe (hI : Inv s l) {r : Injected Output.Written} (hr : r ∈ l) {c : Checkpoint}
    (hc : s.persisted.threads r.thread = some c) (hle : r.stop ≤ c) :
    s.analysisQueue.OnDisk r.place :=
  hI.positions.safe hr hc hle

theorem start_inv (inputDir analysisDir : Dir) (st : Store δ)
    (inputs : Nat → Option (IpCheckpoint δ)) (outputs : Nat → Option OutputSlot) :
    Inv (Service.start inputDir analysisDir st inputs outputs) [] := by
  refine ⟨open_hsInitOutput analysisDir, fun r hr => absurd hr List.not_mem_nil, .start ?_ fun _ => rfl⟩
  intro i c hc
  have hc : st.threads i = some c := hc
  simp [Service.start, hc]

end

end AnalysisDelivery

end Hindsight
