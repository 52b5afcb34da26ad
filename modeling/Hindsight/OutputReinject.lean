import Hindsight.Lib.WriteAhead
import Hindsight.Pipeline

/-!
# Hindsight.OutputReinject

The checkpoints of the output plugins against the messages they inject into the input queue. An
observer records every message injected from `process_message`: the plugin, the message it was
processing, and the place of the frame in the queue; `fresh` are those since the last flush of the
queue by the writer.

* `Safe`: what was injected for messages at or before a persisted position is on disk.
* `Admits`: a checkpoint copied after the flush of a pass covers no message with a fresh
  injection, and nothing is injected for a message that a stored position covers already.
* `reinject_safe`: a run keeps `Safe` if all its steps are admitted.
-/

namespace Hindsight

namespace OutputReinject

structure Injected where
  plugin : Nat
  queue : Queue
  stop : Checkpoint
  place : Output.Written

structure Ledger where
  fresh : List Injected
  flushed : List Injected

namespace Ledger

def empty : Ledger := ⟨[], []⟩

def all (l : Ledger) : List Injected := l.fresh ++ l.flushed

end Ledger

variable {δ : Type} (cfg : HsConfig) (varint : Nat → List UInt8) (shape : Shape)

/-- The message a plugin is processing. -/
def processing (p : OutputPlugin) : Option Msg :=
  match p.pc with
  | .process _ => p.msg
  | _ => none

/-- The observer. -/
def see (s : Service δ) (l : Ledger) : ServiceEvent δ → Ledger
  | .outputInject j pb _ =>
    match (s.outputs j).bind fun o => processing o.plugin with
    | some m =>
      { l with fresh := ⟨j, m.queue, m.stop, s.inputQueue.next (frame varint pb)⟩ :: l.fresh }
    | none => l
  | .write => if s.pc = .inputFlush then ⟨[], l.fresh ++ l.flushed⟩ else l
  | _ => l

abbrev State (δ : Type) := Service δ × Ledger

def step : State δ → ServiceEvent δ → Option (State δ) :=
  Runs.observe (Service.step cfg varint shape) (see varint)

/-- What was injected for a message at or before a persisted position is on disk. -/
def Safe (s : State δ) : Prop :=
  ∀ r ∈ s.2.all, ∀ c, s.1.persisted.outputs r.plugin r.queue = some c → r.stop ≤ c →
    s.1.inputQueue.OnDisk r.place

/-- `p->cp` of plugin `j` covers no message with a fresh injection that is not on disk. -/
def CpFlushed (s : State δ) (j : Nat) (p : OutputPlugin) : Prop :=
  ∀ r ∈ s.2.fresh, r.plugin = j → p.readQueue.reads r.queue = true →
    r.stop ≤ p.cp.get r.queue → s.1.inputQueue.OnDisk r.place

def Admits (s : State δ) : ServiceEvent δ → Prop
  | .write => ∀ j o, s.1.pc = .outputStats j → s.1.outputs j = some o → CpFlushed s j o.plugin
  | .outputExit j =>
    s.1.pc.pastFlush = true → ∀ o, s.1.outputs j = some o → CpFlushed s j o.plugin
  | .outputInject j _ _ =>
    ∀ m, ((s.1.outputs j).bind fun o => processing o.plugin) = some m → ∀ c,
      s.1.store.outputs j m.queue = some c ∨ s.1.persisted.outputs j m.queue = some c → c < m.stop
  | _ => True

/-- The records a stored position stands for. -/
def covered (rs : List Injected) (outputs : Nat → Queue → Option Checkpoint)
    (k : Nat × Queue) : Set Injected :=
  {r | r ∈ rs ∧ (r.plugin, r.queue) = k ∧ ∃ c, outputs k.1 k.2 = some c ∧ r.stop ≤ c}

def durable (o : Output) : Set Injected := {r | o.OnDisk r.place}

def dirty (pc : WriterPc) : Set (Nat × Queue) := {_k | pc.pastFlush = false}

structure Inv (s : Service δ) (l : Ledger) : Prop where
  isOpen : s.inputQueue.Open
  inQueue : ∀ r ∈ l.all, s.inputQueue.InQueue r.place
  flushed : ∀ r ∈ l.flushed, s.inputQueue.OnDisk r.place
  ahead : WriteAhead.Ahead (durable s.inputQueue) (covered l.all s.store.outputs)
    (covered l.all s.persisted.outputs) (dirty s.pc)

section

variable {cfg : HsConfig} {varint : Nat → List UInt8} {shape : Shape} {s s' : Service δ}
  {l : Ledger}

theorem durable_mono {o o' : Output} (h : Output.Grows o o') : durable o ⊆ durable o' :=
  fun _ hr => Output.OnDisk.mono hr h

theorem covered_cons {r : Injected} {rs : List Injected}
    {outputs : Nat → Queue → Option Checkpoint}
    (h : ∀ c, outputs r.plugin r.queue = some c → c < r.stop) :
    covered (r :: rs) outputs = covered rs outputs := by
  funext k
  ext x
  constructor
  · rintro ⟨hx, hk, c, hc, hle⟩
    rcases List.mem_cons.mp hx with rfl | hx
    · subst hk
      exact absurd hle (not_le.mpr (h c hc))
    · exact ⟨hx, hk, c, hc, hle⟩
  · rintro ⟨hx, hrest⟩
    exact ⟨List.mem_cons_of_mem _ hx, hrest⟩

/-- Steps of the other threads, and those of the writer that touch no output checkpoint. -/
theorem frame_inv (hI : Inv s l) (hopen : s'.inputQueue.Open)
    (hgrows : Output.Grows s.inputQueue s'.inputQueue)
    (hstore : s'.store.outputs = s.store.outputs)
    (hpersisted : s'.persisted.outputs = s.persisted.outputs)
    (hdirty : dirty s.pc ⊆ dirty s'.pc) : Inv s' l where
  isOpen := hopen
  inQueue r hr := (hI.inQueue r hr).mono hgrows
  flushed r hr := (hI.flushed r hr).mono hgrows
  ahead := by
    rw [hstore, hpersisted]
    exact (hI.ahead.grow (durable_mono hgrows)).weaken hdirty

theorem inject_inv {j : Nat} {pb : List UInt8} {env : InjectEnv} {bp : Backpressure}
    (hI : Inv s l) (hadm : Admits (s, l) (.outputInject j pb env)) :
    Inv { s with inputQueue := appendFrame cfg varint s.inputQueue pb, outputBp := bp }
      (see varint s l (.outputInject j pb env)) := by
  have hframe : Inv { s with
      inputQueue := appendFrame cfg varint s.inputQueue pb, outputBp := bp } l :=
    frame_inv hI (open_appendFrame hI.isOpen pb) (grows_append hI.isOpen pb) rfl rfl
      (Set.Subset.refl _)
  simp only [see]
  cases hm : (s.outputs j).bind fun o => processing o.plugin with
  | none => exact hframe
  | some m =>
    have hlt := hadm m hm
    refine ⟨hframe.isOpen, fun r hr => ?_, hframe.flushed, ?_⟩
    · simp only [Ledger.all, List.cons_append, List.mem_cons] at hr
      rcases hr with rfl | hr
      · exact inQueue_appendFrame hI.isOpen pb
      · exact hframe.inQueue r hr
    · simp only [Ledger.all, List.cons_append]
      rw [covered_cons fun c hc => hlt c (.inl hc), covered_cons fun c hc => hlt c (.inr hc)]
      exact hframe.ahead

/-- The checkpoints of plugin `j` may go into the store, or be dropped from it, at any time before
the flush of a pass, and after it when they are flushed. -/
theorem store_inv {j : Nat} {p : OutputPlugin} (drop : Bool) (outs : Nat → Option OutputSlot)
    (hI : Inv s l) (hdur : s.pc.pastFlush = true → CpFlushed (s, l) j p) :
    Inv { s with
      outputs := outs
      store := s.store.updateOutput j p.readQueue fun q =>
        if drop then none else some (p.cp.get q) } l := by
  refine ⟨hI.isOpen, hI.inQueue, hI.flushed, ?_⟩
  cases hpast : s.pc.pastFlush with
  | false => exact hI.ahead.copy (Set.Subset.refl _) fun k hk => absurd hpast hk
  | true =>
    refine hI.ahead.copy_durable fun ⟨j', q⟩ => ?_
    by_cases hj : j' = j
    · subst hj
      cases hreads : p.readQueue.reads q with
      | true =>
        right
        rintro r ⟨hr, hk, c, hc, hle⟩
        simp only [Prod.mk.injEq] at hk
        obtain ⟨hplugin, rfl⟩ := hk
        have hcov : r.stop ≤ p.cp.get r.queue := by
          simp only [Store.updateOutput, Function.update_self, hreads, if_true] at hc
          cases drop <;> cases hc
          exact hle
        rcases List.mem_append.mp hr with hr | hr
        · exact hdur hpast r hr hplugin hreads hcov
        · exact hI.flushed r hr
      | false =>
        left
        rintro r ⟨hr, hk, c, hc, hle⟩
        simp only [Store.updateOutput, Function.update_self, hreads] at hc
        exact ⟨hr, hk, c, hc, hle⟩
    · left
      rintro r ⟨hr, hk, c, hc, hle⟩
      simp only [Store.updateOutput, Function.update_of_ne hj] at hc
      exact ⟨hr, hk, c, hc, hle⟩

variable (shape) in
theorem outputs_writeStep (s : Service δ) :
    (s.writeStep shape).store.outputs = match s.pc with
      | .outputStats j => if j < shape.outputCap then (s.outputStats j).store.outputs
        else s.store.outputs
      | _ => s.store.outputs := by
  unfold Service.writeStep Service.inputStats
  cases s.pc with
  | inputStats i => simp only; split <;> (try split) <;> rfl
  | outputStats j => simp only; split <;> rfl
  | analysisStats i => simp only; split <;> rfl
  | _ => rfl

/-- The writer flushes the queue, copies the checkpoints, and in the end persists the store. -/
theorem write_inv (hI : Inv s l) (hadm : Admits (s, l) (.write : ServiceEvent δ)) :
    Inv (s.writeStep shape) (see varint s l .write) := by
  obtain ⟨hopen, hgrows⟩ := Service.writeStep_inputQueue shape hI.isOpen
  have hstore := outputs_writeStep shape s
  have hpersisted := Service.persisted_writeStep shape s
  cases hpc : s.pc with
  | inputFlush =>
    simp only [hpc, reduceCtorEq, if_false] at hstore hpersisted
    have hflush : (s.writeStep shape).inputQueue = s.inputQueue.fflush := by
      rw [Service.inputQueue_writeStep, hpc]
    have hdisk : ∀ r ∈ l.all, (s.writeStep shape).inputQueue.OnDisk r.place := by
      intro r hr
      rw [hflush]
      exact Output.InQueue.fflush (hI.inQueue r hr) hI.isOpen
    have hclean : dirty (s.writeStep shape).pc = ∅ := by
      simp [Service.writeStep, hpc, dirty, WriterPc.pastFlush]
    simp only [see, hpc, if_true]
    refine ⟨hopen, fun r hr => (hdisk r hr).inQueue, fun r hr => hdisk r hr, ?_⟩
    rw [hclean, hstore, hpersisted]
    exact hI.ahead.flush (durable_mono hgrows) fun k _ r hr => hdisk r hr.1
  | outputStats j =>
    simp only [hpc, reduceCtorEq, if_false] at hstore hpersisted
    have hclean : dirty s.pc ⊆ dirty (s.writeStep shape).pc :=
      fun _ h => Service.pastFlush_writeStep (by simp [hpc]) h
    simp only [see, hpc, reduceCtorEq, if_false]
    by_cases hj : j < shape.outputCap
    · rw [if_pos hj] at hstore
      cases ho : s.outputs j with
      | none =>
        simp only [Service.outputStats, ho] at hstore
        exact frame_inv hI hopen hgrows hstore (by rw [hpersisted]) hclean
      | some o =>
        simp only [Service.outputStats, ho] at hstore
        have hcopy := store_inv false s.outputs hI
          fun _ => hadm j o hpc ho
        exact frame_inv hcopy hopen hgrows hstore (by rw [hpersisted]) hclean
    · rw [if_neg hj] at hstore
      exact frame_inv hI hopen hgrows hstore (by rw [hpersisted]) hclean
  | persist =>
    simp only [hpc, if_true] at hstore hpersisted
    have hold : Inv { s.writeStep shape with persisted := s.persisted, pc := .persist } l :=
      frame_inv hI hopen hgrows hstore rfl (by rw [hpc])
    have hclean : dirty WriterPc.persist = ∅ := by simp [dirty, WriterPc.pastFlush]
    have hahead := hold.ahead
    simp only [see, hpc, reduceCtorEq, if_false]
    refine ⟨hopen, hold.inQueue, hold.flushed, ?_⟩
    rw [hclean] at hahead
    simp only [hstore] at hahead
    rw [hstore, hpersisted]
    exact hahead.persist.weaken (Set.empty_subset _)
  | idle | inputStats | analysisStats | analysisFlush | publishInput | publishAnalysis =>
    simp only [hpc, reduceCtorEq, if_false] at hstore hpersisted
    simp only [see, hpc, reduceCtorEq, if_false]
    exact frame_inv hI hopen hgrows hstore (by rw [hpersisted])
      fun _ h => Service.pastFlush_writeStep (by simp [hpc]) h

theorem step_inv {e : ServiceEvent δ} (hI : Inv s l) (hadm : Admits (s, l) e)
    (h : s.step cfg varint shape e = some s') : Inv s' (see varint s l e) := by
  obtain ⟨hopen, hgrows⟩ := Service.step_inputQueue h hI.isOpen
  cases e with
  | write => cases h; exact write_inv hI hadm
  | outputInject j pb env =>
    obtain ⟨_, -, -, rfl⟩ := Service.step_outputInject h
    exact inject_inv hI hadm
  | outputExit j =>
    obtain ⟨o, ho, -, rfl⟩ := Service.step_outputExit h
    exact store_inv _ _ hI fun hpast => hadm hpast o ho
  | spill q n =>
    cases q <;> cases h <;> exact frame_inv hI hopen hgrows rfl rfl (Set.Subset.refl _)
  | inject i pb d str =>
    obtain ⟨_, -, -, rfl⟩ := Service.step_inject h
    exact frame_inv hI hopen hgrows rfl rfl (Set.Subset.refl _)
  | append i env =>
    obtain ⟨_, _, -, rfl⟩ := Service.step_append h
    exact frame_inv hI hopen hgrows rfl rfl (Set.Subset.refl _)
  | inputExit i =>
    obtain ⟨_, -, rfl⟩ := Service.step_inputExit h
    exact frame_inv hI hopen hgrows rfl rfl (Set.Subset.refl _)
  | find i e =>
    obtain ⟨-, rfl⟩ := Service.step_find h
    exact frame_inv hI hopen hgrows rfl rfl (Set.Subset.refl _)
  | reset i c =>
    obtain ⟨-, rfl⟩ := Service.step_reset h
    exact frame_inv hI hopen hgrows rfl rfl (Set.Subset.refl _)
  | analyzeInject i pb env =>
    cases h
    exact frame_inv hI hopen hgrows rfl rfl (Set.Subset.refl _)
  | analyzed i =>
    obtain ⟨_, -, rfl⟩ := Service.step_analyzed h
    exact frame_inv hI hopen hgrows rfl rfl (Set.Subset.refl _)
  | output j e =>
    obtain ⟨_, _, -, -, rfl⟩ := Service.step_output h
    exact frame_inv hI hopen hgrows rfl rfl (Set.Subset.refl _)

theorem start_inv (inputDir analysisDir : Dir) (st : Store δ)
    (inputs : Nat → Option (IpCheckpoint δ)) (outputs : Nat → Option OutputSlot) :
    Inv (Service.start inputDir analysisDir st inputs outputs) Ledger.empty := by
  have hnone : ∀ k, covered Ledger.empty.all st.outputs k = ∅ := by
    intro k
    simp [covered, Ledger.empty, Ledger.all]
  refine ⟨open_hsInitOutput inputDir, ?_, ?_, ⟨fun k _ => ?_, fun k => ?_⟩⟩
  · simp [Ledger.empty, Ledger.all]
  · simp [Ledger.empty]
  · exact (hnone k).subset.trans (Set.empty_subset _)
  · exact (hnone k).subset.trans (Set.empty_subset _)

end

/-- A run whose steps are admitted never persists a position past a message whose injections are
not on disk. -/
theorem reinject_safe (inputDir analysisDir : Dir) (st : Store δ)
    (inputs : Nat → Option (IpCheckpoint δ)) (outputs : Nat → Option OutputSlot)
    {es : List (ServiceEvent δ)}
    (hadm : Runs.Meets (step cfg varint shape) Admits
      (Service.start inputDir analysisDir st inputs outputs, Ledger.empty) es) :
    Runs.Always (step cfg varint shape) Safe
      (Service.start inputDir analysisDir st inputs outputs, Ledger.empty) es := by
  refine Runs.Always.mono (P := fun s : State δ => Inv s.1 s.2)
    (fun s hI r hr c hc hle => hI.ahead.persisted (r.plugin, r.queue) ⟨hr, rfl, c, hc, hle⟩) ?_
  refine Runs.always_of_meets (I := fun s : State δ => Inv s.1 s.2) (fun s e s' hI hc h => ?_)
    (start_inv inputDir analysisDir st inputs outputs) hadm
  obtain ⟨hs, hl⟩ := Runs.observe_some.mp h
  rw [hl]
  exact step_inv hI hc hs

/-! ## A run that loses a message -/

/-- One input plugin, one output plugin that reads the input queue, empty queues. -/
def oneOutput : Service Nat :=
  Service.start ⟨[], fun _ => []⟩ ⟨[], fun _ => []⟩
    ⟨fun _ => .nil, fun _ => none, fun _ _ => none, fun _ => none⟩
    (fun i => if i = 0 then some IpCheckpoint.init else none)
    fun j => if j = 0 then some ⟨.create .input 0 0 0 ⟨⟨0, 0⟩, ⟨0, 0⟩⟩, false⟩ else none

/-- A message is put into the input queue. -/
def injectEvents : List (ServiceEvent Nat) :=
  [.inject 0 (some [1, 2, 3]) none (some [0x61]), .append 0 ⟨0, none, none⟩]

/-- The output plugin processes it and injects another one. -/
def reinjectEvents : List (ServiceEvent Nat) :=
  [.output 0 .head, .output 0 (.openFirst .input), .output 0 .nothing, .output 0 .head,
   .output 0 (.deliver .input ⟨0, 8⟩), .output 0 (.matcher true),
   .outputInject 0 [4, 5] ⟨0, none, none⟩, .output 0 (.pmReturn .sent)]

/-- The plugin runs between the flush of the input queue and the copy of its checkpoint. -/
def overtakenRun : List (ServiceEvent Nat) :=
  injectEvents ++ List.replicate 4 .write ++ reinjectEvents ++ List.replicate 8 .write

theorem reinject_unsafe : ¬∀ (δ : Type) cfg varint shape inputDir analysisDir (st : Store δ) inputs
    outputs es, Runs.Always (step cfg varint shape) Safe
      (Service.start inputDir analysisDir st inputs outputs, Ledger.empty) es := by
  intro h
  have hrun : ∃ t r c, Runs.run (step ⟨1024, 0, 0⟩ (fun n => [UInt8.ofNat n]) ⟨1, 1, 1⟩)
      (oneOutput, Ledger.empty) overtakenRun = some t ∧ t.2.all = [r] ∧
        t.1.persisted.outputs r.plugin r.queue = some c ∧ r.stop ≤ c ∧
        ¬t.1.inputQueue.OnDisk r.place :=
    ⟨_, ⟨0, .input, ⟨0, 8⟩, ⟨0, 8, _⟩⟩, ⟨0, 8⟩, rfl, rfl, rfl, le_refl _, by decide⟩
  obtain ⟨t, r, c, hrun, hall, hpersisted, hle, hdisk⟩ := hrun
  refine hdisk ((h Nat _ _ _ _ _ _ _ _ _).run hrun r ?_ c hpersisted hle)
  rw [hall]
  exact List.mem_singleton_self r

/-- The plugin runs before the pass. -/
def orderedRun : List (ServiceEvent Nat) :=
  injectEvents ++ reinjectEvents ++ List.replicate 12 .write

theorem reinject_safe_ordered :
    Runs.Always (step ⟨1024, 0, 0⟩ (fun n => [UInt8.ofNat n]) ⟨1, 1, 1⟩) Safe
      (oneOutput, Ledger.empty) orderedRun := by
  refine reinject_safe _ _ _ _ _ _ _ _ ?_
  refine .cons rfl trivial (.cons rfl trivial (.cons rfl trivial (.cons rfl trivial
    (.cons rfl trivial (.cons rfl trivial (.cons rfl trivial (.cons rfl trivial ?_)))))))
  refine .cons rfl (fun m hm c hc => ?_) (.cons rfl trivial ?_)
  · cases hm
    rcases hc with hc | hc <;> cases hc
  · refine .cons rfl (fun _ _ h => nomatch h) (.cons rfl (fun _ _ h => nomatch h)
      (.cons rfl (fun _ _ h => nomatch h) (.cons rfl (fun _ _ h => nomatch h)
      (.cons rfl (fun _ _ h => nomatch h) (.cons rfl (fun _ _ h => nomatch h)
      (.cons rfl (fun _ _ h => nomatch h) (.cons rfl (fun _ _ _ _ r hr => nomatch hr)
      (.cons rfl (fun _ _ _ _ r hr => nomatch hr) (.cons rfl (fun _ _ h => nomatch h)
      (.cons rfl (fun _ _ h => nomatch h) (.cons rfl (fun _ _ h => nomatch h) trivial)))))))))))

end OutputReinject

end Hindsight
