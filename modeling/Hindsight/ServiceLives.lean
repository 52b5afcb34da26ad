import Hindsight.AnalysisDelivery
import Hindsight.Lib.Replay

/-!
# Hindsight.ServiceLives

The service over any number of lives. A life ends with a kill, which leaves `hindsight.cp` and the bytes that had
reached the files, or with a shutdown: all plugins and threads end, `hs_write_checkpoints` makes a last pass, and
the queues are closed. The next life starts from what is left, with any plugins. The directories are not pruned,
and the messages of the input queue are given by their ends.

An observer keeps, for every message a thread has analyzed, the frames plugins injected for it, in all lives.

* `pass_spec`: what the last pass stores.
* `Safe`: each message up to the persisted position of a thread, from where the thread once started without one,
  was analyzed with all its frames on disk; and no message was analyzed more often than there were kills and once.
* `Admits`: the readers of the analysis threads hand out the messages one after the other, and no position is
  reset.
* `lives_safe`: every run whose steps are admitted.
-/

namespace Hindsight

namespace ServiceLives

open Replay

variable {δ : Type}

/-! ## The last pass -/

/-- How many steps of `hs_write_checkpoints` are left. -/
def remaining (shape : Shape) : WriterPc → Nat
  | .idle => 0
  | .inputStats i => (shape.inputCap - i) + 2 * shape.threadCnt + shape.outputCap + 7
  | .inputFlush => 2 * shape.threadCnt + shape.outputCap + 6
  | .analysisStats i => 2 * (shape.threadCnt - i) + shape.outputCap + 5
  | .analysisFlush i => 2 * (shape.threadCnt - (i + 1)) + shape.outputCap + 6
  | .outputStats j => (shape.outputCap - j) + 4
  | .publishInput => 3
  | .publishAnalysis => 2
  | .persist => 1

/-- A whole `hs_write_checkpoints`, while nothing else happens. -/
def pass (shape : Shape) (s : Service δ) : Service δ :=
  (Service.writeStep shape)^[remaining shape (.inputStats 0) + 1] s

/-- The threads whose positions are in the store already. -/
def copied (shape : Shape) : WriterPc → Nat
  | .idle | .inputStats _ | .inputFlush => 0
  | .analysisStats i => i
  | .analysisFlush i => i + 1
  | .outputStats _ | .publishInput | .publishAnalysis | .persist => shape.threadCnt

/-- The stored positions are those of the threads. -/
def Copied (shape : Shape) (s : Service δ) : Prop :=
  ∀ i < copied shape s.pc, i < shape.threadCnt → s.store.threads i = some (s.threads i).cp

section

variable {shape : Shape} {s : Service δ}

theorem remaining_writeStep (h : s.pc ≠ .idle) :
    remaining shape (s.writeStep shape).pc + 1 = remaining shape s.pc := by
  unfold Service.writeStep
  cases hpc : s.pc with
  | idle => exact absurd hpc h
  | inputStats i | outputStats i | analysisStats i =>
    simp only
    split
    · simp only [remaining]; omega
    · simp only [remaining]; omega
  | inputFlush =>
    simp only [remaining]
    omega
  | analysisFlush | publishInput | publishAnalysis | persist => rfl

theorem copied_writeStep (h : Copied shape s) : Copied shape (s.writeStep shape) := by
  obtain ⟨-, hthreads, -⟩ := Service.plugins_writeStep shape s
  intro i hi hlt
  rw [hthreads, AnalysisDelivery.threads_writeStep]
  unfold Copied at h
  unfold Service.writeStep at hi
  cases hpc : s.pc with
  | analysisStats k =>
    simp only [hpc] at h hi ⊢
    by_cases hk : k < shape.threadCnt
    · simp only [hk, if_true, copied] at hi ⊢
      by_cases hik : i = k
      · subst hik
        simp
      · rw [Function.update_of_ne hik]
        exact h i (by simp only [copied]; omega) hlt
    · simp only [hk, if_false]
      exact h i (by simp only [copied]; omega) hlt
  | inputStats k | outputStats k =>
    simp only [hpc] at h hi ⊢
    split at hi
    · exact h i hi hlt
    · exact h i hi hlt
  | idle | inputFlush | persist =>
    simp only [hpc, copied] at hi
    exact absurd hi (Nat.not_lt_zero i)
  | analysisFlush | publishInput | publishAnalysis =>
    simp only [hpc] at h hi ⊢
    exact h i hi hlt

/-- The rest of a pass. -/
theorem rest_of_pass {n : Nat} (hn : remaining shape s.pc = n + 1) (h : Copied shape s) :
    let t := (Service.writeStep shape)^[n + 1] s
    t.pc = .idle ∧ t.threads = s.threads ∧
      ∀ i < shape.threadCnt, t.persisted.threads i = some (s.threads i).cp := by
  induction n generalizing s with
  | zero =>
    have hpc : s.pc = .persist := by
      cases hpc : s.pc with
      | persist => rfl
      | idle => rw [hpc] at hn; cases hn
      | _ => rw [hpc] at hn; simp only [remaining] at hn; omega
    simp only [Nat.zero_add, Function.iterate_one]
    refine ⟨by simp only [Service.writeStep, hpc], (Service.plugins_writeStep shape s).2.1,
      fun i hi => ?_⟩
    rw [Service.persisted_writeStep, if_pos hpc]
    exact h i (by simpa only [hpc, copied] using hi) hi
  | succ n ih =>
    have hidle : s.pc ≠ .idle := by
      intro hpc
      rw [hpc] at hn
      cases hn
    have hstep : remaining shape (s.writeStep shape).pc + 1 = remaining shape s.pc :=
      remaining_writeStep hidle
    obtain ⟨hpc, hthreads, hpersisted⟩ :=
      ih (s := s.writeStep shape) (by omega) (copied_writeStep h)
    rw [(Service.plugins_writeStep shape s).2.1] at hthreads hpersisted
    rw [Function.iterate_succ_apply]
    exact ⟨hpc, hthreads, hpersisted⟩

/-- After a whole pass, with the plugins and threads at rest, the persisted positions are theirs. -/
theorem pass_spec (hidle : s.pc = .idle) :
    (pass shape s).pc = .idle ∧ (pass shape s).threads = s.threads ∧
      ∀ i < shape.threadCnt, (pass shape s).persisted.threads i = some (s.threads i).cp := by
  have hpc : (s.writeStep shape).pc = .inputStats 0 := by simp only [Service.writeStep, hidle]
  have hthreads := (Service.plugins_writeStep shape s).2.1
  have hleft : remaining shape (s.writeStep shape).pc = remaining shape (.inputStats 0) - 1 + 1 := by
    rw [hpc]
    simp only [remaining]
    omega
  have hcopied : Copied shape (s.writeStep shape) := fun i hi => by
    rw [hpc] at hi
    exact absurd hi (Nat.not_lt_zero i)
  have hrest := rest_of_pass hleft hcopied
  rw [Nat.sub_add_cancel (by simp only [remaining]; omega), hthreads] at hrest
  rw [pass, Function.iterate_succ_apply]
  exact hrest

end

/-- All plugins and threads have ended, and the main thread is at none of its checkpoints. -/
structure Stopped (shape : Shape) (s : Service δ) : Prop where
  writer : s.pc = .idle
  inputs : ∀ i < shape.inputCap, (s.inputs i).isNone
  threads : ∀ i < shape.threadCnt, (s.threads i).msg = none
  outputs : ∀ j < shape.outputCap, (s.outputs j).isNone

instance (shape : Shape) (s : Service δ) : Decidable (Stopped shape s) :=
  decidable_of_iff (s.pc = .idle ∧ (∀ i < shape.inputCap, (s.inputs i).isNone) ∧
      (∀ i < shape.threadCnt, (s.threads i).msg = none) ∧
      ∀ j < shape.outputCap, (s.outputs j).isNone)
    ⟨fun h => ⟨h.1, h.2.1, h.2.2.1, h.2.2.2⟩, fun h => ⟨h.writer, h.inputs, h.threads, h.outputs⟩⟩

/-! ## The machine -/

/-- A new life starts with plugins of its own. -/
inductive LifeEvent (δ : Type) where
  | live (e : ServiceEvent δ)
  | kill (inputs : Nat → Option (IpCheckpoint δ)) (outputs : Nat → Option OutputSlot)
  | shutdown (inputs : Nat → Option (IpCheckpoint δ)) (outputs : Nat → Option OutputSlot)

/-- The next message after `c`, by the end of it. -/
def IsNext (ends : List Checkpoint) : Checkpoint → Checkpoint → Prop := Next {m | m ∈ ends}

instance (ends : List Checkpoint) (c e : Checkpoint) : Decidable (IsNext ends c e) :=
  inferInstanceAs (Decidable (e ∈ ends ∧ c < e ∧ ∀ m ∈ ends, c < m → e ≤ m))

/-- What the process leaves when it is killed, or ends after its last pass: `hs_free_output` closes the
queues. -/
structure Remains (δ : Type) where
  inputDir : Dir
  analysisDir : Dir
  persisted : Store δ

def killed (s : Service δ) : Remains δ := ⟨s.inputQueue.dir, s.analysisQueue.dir, s.persisted⟩

def closed (shape : Shape) (s : Service δ) : Remains δ :=
  let t := pass shape s
  ⟨t.inputQueue.fclose.dir, t.analysisQueue.fclose.dir, t.persisted⟩

def Remains.restart (r : Remains δ) (inputs : Nat → Option (IpCheckpoint δ))
    (outputs : Nat → Option OutputSlot) : Service δ :=
  Service.start r.inputDir r.analysisDir r.persisted inputs outputs

section

variable (cfg : HsConfig) (varint : Nat → List UInt8) (shape : Shape) (ends : List Checkpoint)

def lifeStep (s : Service δ) : LifeEvent δ → Option (Service δ)
  | .live e => s.step cfg varint shape e
  | .kill inputs outputs => some ((killed s).restart inputs outputs)
  | .shutdown inputs outputs =>
    if Stopped shape s then some ((closed shape s).restart inputs outputs) else none

/-! ## The observer -/

/-- A message that was analyzed, and where the frames are that plugins injected for it. -/
structure Analysis where
  thread : Nat
  stop : Checkpoint
  written : List Output.Written
  deriving DecidableEq

/-- `origin i` is where thread `i` started when no position was persisted for it; `injected` is of this life. -/
structure Ledger where
  origin : Nat → Checkpoint
  injected : List (AnalysisDelivery.Injected Output.Written)
  current : Nat → List Output.Written
  finished : List Analysis
  kills : Nat

namespace Ledger

def begin (r : Remains δ) : Ledger where
  origin i := (r.restart (fun _ => none) (fun _ => none)).threads i |>.cp
  injected := []
  current _ := []
  finished := []
  kills := 0

def restart (l : Ledger) (r : Remains δ) (kills : Nat) : Ledger where
  origin i := if (r.persisted.threads i).isSome then l.origin i else (begin r).origin i
  injected := []
  current _ := []
  finished := l.finished
  kills := l.kills + kills

/-- How often a thread has analyzed the message that ends at `m`. -/
def times (l : Ledger) (i : Nat) (m : Checkpoint) : Nat :=
  l.finished.countP fun a => a.thread == i && a.stop == m

end Ledger

def seeLive (s : Service δ) (l : Ledger) (e : ServiceEvent δ) : Ledger :=
  { l with
    injected := AnalysisDelivery.see varint s l.injected e
    current := match e with
      | .find i _ => Function.update l.current i []
      | .analyzeInject i pb _ =>
        if (s.threads i).msg.isSome then
          Function.update l.current i
            (s.analysisQueue.next (frame varint pb) :: l.current i)
        else l.current
      | _ => l.current
    finished := match e with
      | .analyzed i =>
        match (s.threads i).msg with
        | some m => ⟨i, m, l.current i⟩ :: l.finished
        | none => l.finished
      | _ => l.finished }

def see (s : Service δ) (l : Ledger) : LifeEvent δ → Ledger
  | .live e => seeLive varint s l e
  | .kill _ _ => l.restart (killed s) 1
  | .shutdown _ _ => l.restart (closed shape s) 0

abbrev State (δ : Type) := Service δ × Ledger

def step : State δ → LifeEvent δ → Option (State δ) :=
  Runs.observe (lifeStep cfg varint shape) (see varint shape)

/-- A thread of the configuration finds the next message; no thread is set elsewhere. -/
def Admits (s : State δ) : LifeEvent δ → Prop
  | .live (.find i e) => i < shape.threadCnt ∧ IsNext ends (s.1.threads i).cp e
  | .live (.reset _ _) => False
  | _ => True

def start (r : Remains δ) (inputs : Nat → Option (IpCheckpoint δ))
    (outputs : Nat → Option OutputSlot) : State δ :=
  (r.restart inputs outputs, Ledger.begin r)

/-- The messages thread `i` has analyzed with all their frames on disk. -/
def kept (s : State δ) (i : Nat) : Set Checkpoint :=
  {m | ∃ a ∈ s.2.finished, a.thread = i ∧ a.stop = m ∧ ∀ w ∈ a.written, s.1.analysisQueue.OnDisk w}

structure Safe (s : State δ) : Prop where
  kept : ∀ i < shape.threadCnt, ∀ c, s.1.persisted.threads i = some c →
    Covers {m | m ∈ ends} (s.2.origin i) c (kept s i)
  bounded : ∀ i m, s.2.times i m ≤ s.2.kills + 1

end

/-! ## The invariant -/

section

variable {cfg : HsConfig} {varint : Nat → List UInt8} {shape : Shape} {ends : List Checkpoint}
  {s s' : Service δ} {l : Ledger}

/-- The messages thread `i` has analyzed whose frames are on disk, or at least injected in this life. -/
def written (s : Service δ) (l : Ledger) (i : Nat) : Set Checkpoint :=
  {m | ∃ a ∈ l.finished, a.thread = i ∧ a.stop = m ∧
    ∀ w ∈ a.written, s.analysisQueue.OnDisk w ∨ ⟨i, m, w⟩ ∈ l.injected}

structure Inv (shape : Shape) (ends : List Checkpoint) (s : Service δ) (l : Ledger) : Prop where
  delivery : AnalysisDelivery.Inv s l.injected
  next : ∀ i e, (s.threads i).msg = some e → i < shape.threadCnt ∧ IsNext ends (s.threads i).cp e
  current : ∀ i e, (s.threads i).msg = some e → ∀ w ∈ l.current i, ⟨i, e, w⟩ ∈ l.injected
  finished : ∀ a ∈ l.finished, a.thread < shape.threadCnt
  covers : ∀ i < shape.threadCnt,
    Covers {m | m ∈ ends} (l.origin i) (s.threads i).cp (written s l i)
  repeats : ∀ i, Repeats (s.threads i).cp (l.times i) l.kills

theorem written_mono {inj : List (AnalysisDelivery.Injected Output.Written)}
    (hgrows : Output.Grows s.analysisQueue s'.analysisQueue) (hsub : ∀ r ∈ l.injected, r ∈ inj)
    (i : Nat) : written s l i ⊆ written s' { l with injected := inj } i := by
  rintro m ⟨a, ha, hi, hm, hw⟩
  exact ⟨a, ha, hi, hm, fun w hin => (hw w hin).imp (·.mono hgrows) (hsub _)⟩

/-- Steps that move no analysis thread. -/
theorem frame_inv {inj : List (AnalysisDelivery.Injected Output.Written)} (hI : Inv shape ends s l)
    (hd : AnalysisDelivery.Inv s' inj) (hthreads : s'.threads = s.threads)
    (hgrows : Output.Grows s.analysisQueue s'.analysisQueue)
    (hsub : ∀ r ∈ l.injected, r ∈ inj) : Inv shape ends s' { l with injected := inj } where
  delivery := hd
  next := by rw [hthreads]; exact hI.next
  current := by
    rw [hthreads]
    exact fun i e he w hw => hsub _ (hI.current i e he w hw)
  finished := hI.finished
  covers i hi := by
    rw [hthreads]
    exact (hI.covers i hi).mono fun m _ _ hm => written_mono hgrows hsub i hm
  repeats := by rw [hthreads]; exact hI.repeats

/-- The events that move an analysis thread. -/
def moves : ServiceEvent δ → Bool
  | .find _ _ | .reset _ _ | .analyzed _ => true
  | _ => false

theorem threads_step {e : ServiceEvent δ} (h : s.step cfg varint shape e = some s')
    (he : moves e = false) : s'.threads = s.threads := by
  cases e with
  | find | reset | analyzed => cases he
  | write => cases h; exact (Service.plugins_writeStep shape s).2.1
  | spill q n => cases q <;> cases h <;> rfl
  | inject i pb d str => obtain ⟨_, -, -, rfl⟩ := Service.step_inject h; rfl
  | append i env => obtain ⟨_, _, -, rfl⟩ := Service.step_append h; rfl
  | inputExit i => obtain ⟨_, -, rfl⟩ := Service.step_inputExit h; rfl
  | analyzeInject i pb env => cases h; rfl
  | output j e => obtain ⟨_, _, -, -, rfl⟩ := Service.step_output h; rfl
  | outputInject j pb env => obtain ⟨_, -, -, rfl⟩ := Service.step_outputInject h; rfl
  | outputExit j => obtain ⟨o, -, -, rfl⟩ := Service.step_outputExit h; rfl

theorem find_inv {i : Nat} {e : Checkpoint} (hI : Inv shape ends s l) (hi : i < shape.threadCnt)
    (hnext : IsNext ends (s.threads i).cp e)
    (hd : AnalysisDelivery.Inv { s with
      threads := Function.update s.threads i { s.threads i with msg := some e } } l.injected) :
    Inv shape ends { s with
        threads := Function.update s.threads i { s.threads i with msg := some e } }
      (seeLive varint s l (.find i e)) := by
  have hcp : ∀ j, (Function.update s.threads i { s.threads i with msg := some e } j).cp =
      (s.threads j).cp := by
    intro j
    by_cases hj : j = i
    · subst hj; simp
    · simp [hj]
  refine ⟨hd, fun j c hc => ?_, fun j c hc w hw => ?_, hI.finished, fun j hj => ?_, fun j => ?_⟩
  · by_cases hji : j = i
    · subst hji
      simp only [Function.update_self, Option.some.injEq] at hc ⊢
      subst hc
      exact ⟨hi, hnext⟩
    · simp only [Function.update_of_ne hji] at hc ⊢
      exact hI.next j c hc
  · by_cases hji : j = i
    · subst hji
      simp [seeLive] at hw
    · simp only [seeLive, Function.update_of_ne hji] at hc hw
      exact hI.current j c hc w hw
  · simp only [hcp]
    exact hI.covers j hj
  · simp only [hcp]
    exact hI.repeats j

theorem times_analyzed {i j : Nat} {e m : Checkpoint} (hmsg : (s.threads i).msg = some e) :
    (seeLive varint s l (.analyzed i)).times j m =
      l.times j m + if i = j ∧ e = m then 1 else 0 := by
  simp only [Ledger.times, seeLive, hmsg, List.countP_cons, Bool.and_eq_true, beq_iff_eq]

/-- The message a thread has analyzed is the next one, and its frames are in the queue. -/
theorem analyzed_inv {i : Nat} {e : Checkpoint} (hI : Inv shape ends s l)
    (hmsg : (s.threads i).msg = some e)
    (hd : AnalysisDelivery.Inv { s with threads := Function.update s.threads i ⟨e, none⟩ }
      l.injected) :
    Inv shape ends { s with threads := Function.update s.threads i ⟨e, none⟩ }
      (seeLive varint s l (.analyzed i)) := by
  obtain ⟨hi, hnext⟩ := hI.next i e hmsg
  have hfinished : (seeLive varint s l (.analyzed i)).finished =
      ⟨i, e, l.current i⟩ :: l.finished := by simp only [seeLive, hmsg]
  have hold : ∀ j, written s l j ⊆ written
      { s with threads := Function.update s.threads i ⟨e, none⟩ }
      (seeLive varint s l (.analyzed i)) j := by
    rintro j m ⟨a, ha, hj, hm, hw⟩
    exact ⟨a, by rw [hfinished]; exact List.mem_cons_of_mem _ ha, hj, hm, hw⟩
  have hnew : e ∈ written { s with threads := Function.update s.threads i ⟨e, none⟩ }
      (seeLive varint s l (.analyzed i)) i :=
    ⟨⟨i, e, l.current i⟩, by rw [hfinished]; exact List.mem_cons_self, rfl, rfl,
      fun w hw => .inr (hI.current i e hmsg w hw)⟩
  refine ⟨hd, fun j c hc => ?_, fun j c hc w hw => ?_, fun a ha => ?_, fun j hj => ?_, fun j => ?_⟩
  · by_cases hji : j = i
    · subst hji
      simp at hc
    · simp only [Function.update_of_ne hji] at hc ⊢
      exact hI.next j c hc
  · by_cases hji : j = i
    · subst hji
      simp at hc
    · simp only [Function.update_of_ne hji] at hc
      exact hI.current j c hc w hw
  · rw [hfinished] at ha
    rcases List.mem_cons.mp ha with rfl | ha
    · exact hi
    · exact hI.finished a ha
  · have hcov := (hI.covers j hj).mono fun m _ _ hm => hold j hm
    by_cases hji : j = i
    · subst hji
      simp only [Function.update_self]
      exact hcov.advance hnext hnew
    · simp only [Function.update_of_ne hji]
      exact hcov
  · by_cases hji : j = i
    · subst hji
      simp only [Function.update_self]
      refine (hI.repeats j).advance hnext.2.1 ?_ fun m hm => ?_
      · rw [times_analyzed hmsg, if_pos ⟨rfl, rfl⟩]
      · rw [times_analyzed hmsg, if_neg fun h => hm h.2.symm, Nat.add_zero]
    · simp only [Function.update_of_ne hji]
      have htimes : (seeLive varint s l (.analyzed i)).times j = l.times j := by
        funext m
        rw [times_analyzed hmsg, if_neg fun h => hji h.1.symm, Nat.add_zero]
      rw [htimes]
      exact hI.repeats j

/-- A frame that is injected while a message is analyzed is recorded with it. -/
theorem inject_inv {i : Nat} {pb : List UInt8} {env : InjectEnv} (hI : Inv shape ends s l)
    (h : s.step cfg varint shape (.analyzeInject i pb env) = some s') :
    Inv shape ends s' (seeLive varint s l (.analyzeInject i pb env)) := by
  have hd := AnalysisDelivery.step_inv hI.delivery
    (show AnalysisDelivery.Admits s (.analyzeInject i pb env) from trivial) h
  have hgrows := (Service.step_analysisQueue h hI.delivery.isOpen).2
  have hthreads := threads_step h rfl
  have hsub : ∀ r ∈ l.injected,
      r ∈ AnalysisDelivery.see varint s l.injected (.analyzeInject i pb env) := by
    intro r hr
    simp only [AnalysisDelivery.see]
    split
    · exact List.mem_cons_of_mem _ hr
    · exact hr
  have hframe := frame_inv hI hd hthreads hgrows hsub
  refine ⟨hd, hframe.next, fun j e he w hw => ?_, hframe.finished, hframe.covers, hframe.repeats⟩
  rw [hthreads] at he
  by_cases hji : j = i
  · subst hji
    simp only [seeLive, he, Option.isSome_some, if_true, Function.update_self,
      List.mem_cons] at hw
    rcases hw with rfl | hw
    · simp only [seeLive, AnalysisDelivery.see, he]
      exact List.mem_cons_self
    · exact hsub _ (hI.current j e he w hw)
  · have hcur : (seeLive varint s l (.analyzeInject i pb env)).current j = l.current j := by
      simp only [seeLive]
      split
      · exact Function.update_of_ne hji _ _
      · rfl
    rw [hcur] at hw
    exact hsub _ (hI.current j e he w hw)

/-- The next message is after the position. -/
theorem delivery_admits {e : ServiceEvent δ} (hadm : Admits shape ends (s, l) (.live e)) :
    AnalysisDelivery.Admits s e := by
  cases e with
  | find i e =>
    obtain ⟨-, -, hlt, -⟩ : i < shape.threadCnt ∧ IsNext ends (s.threads i).cp e := hadm
    exact hlt
  | reset i c => exact absurd hadm id
  | _ => trivial

theorem live_inv {e : ServiceEvent δ} (hI : Inv shape ends s l)
    (hadm : Admits shape ends (s, l) (.live e)) (hs : s.step cfg varint shape e = some s') :
    Inv shape ends s' (seeLive varint s l e) := by
  have hd := AnalysisDelivery.step_inv hI.delivery (delivery_admits hadm) hs
  have hgrows := (Service.step_analysisQueue hs hI.delivery.isOpen).2
  cases e with
  | find i e =>
    obtain ⟨-, rfl⟩ := Service.step_find hs
    exact find_inv hI hadm.1 hadm.2 hd
  | reset i c => exact absurd hadm id
  | analyzed i =>
    obtain ⟨e, he, rfl⟩ := Service.step_analyzed hs
    exact analyzed_inv hI he hd
  | analyzeInject i pb env => exact inject_inv hI hs
  | spill | write | inject | append | inputExit | output | outputInject | outputExit =>
    exact frame_inv hI hd (threads_step hs rfl) hgrows fun _ hr => hr

/-! ## The end of a life -/

/-- The queue as a new life finds it. -/
theorem bytes_start (d : Dir) (id : Nat) : (hsInitOutput d).dir.bytes id = d.bytes id := by
  simp [hsInitOutput, hsOpenOutputFile, Output.fclose, Output.fflush, Output.spill, Output.fopen]

/-- A thread that has analyzed nothing. -/
theorem Inv.repeats_other (hI : Inv shape ends s l) {i : Nat} (hi : ¬i < shape.threadCnt)
    (c : Checkpoint) : Repeats c (l.times i) l.kills := by
  have hzero : ∀ m, l.times i m = 0 := by
    intro m
    simp only [Ledger.times, List.countP_eq_zero, Bool.and_eq_true, beq_iff_eq, not_and]
    intro a ha hai
    exact absurd (hai ▸ hI.finished a ha) hi
  exact ⟨fun m => by rw [hzero m]; omega, fun m _ => by rw [hzero m]; omega⟩

/-- A new life: what is persisted is not ahead of the threads, and its frames are on disk. It goes on where the
last one was, or a kill is counted. -/
theorem restart_inv {r : Remains δ} {k : Nat} (hI : Inv shape ends s l)
    (hle : ∀ i < shape.threadCnt, ∀ c, r.persisted.threads i = some c → c ≤ (s.threads i).cp)
    (hdisk : ∀ i < shape.threadCnt, ∀ c, r.persisted.threads i = some c → ∀ m ≤ c, ∀ w,
      s.analysisQueue.OnDisk w ∨ ⟨i, m, w⟩ ∈ l.injected → (hsInitOutput r.analysisDir).OnDisk w)
    (hkill : k = 1 ∨
      k = 0 ∧ ∀ i < shape.threadCnt, r.persisted.threads i = some (s.threads i).cp)
    (inputs : Nat → Option (IpCheckpoint δ)) (outputs : Nat → Option OutputSlot) :
    Inv shape ends (r.restart inputs outputs) (l.restart r k) := by
  refine ⟨AnalysisDelivery.start_inv _ _ _ _ _, fun i e he => ?_, fun i e he => ?_, hI.finished,
    fun i hi => ?_, fun i => ?_⟩
  · simp [Remains.restart, Service.start] at he
  · simp [Remains.restart, Service.start] at he
  · cases hp : r.persisted.threads i with
    | none =>
      have horigin : (l.restart r k).origin i = ((r.restart inputs outputs).threads i).cp := by
        simp [Ledger.restart, Ledger.begin, Remains.restart, Service.start, hp]
      rw [horigin]
      exact Covers.start _ _ _
    | some c =>
      have horigin : (l.restart r k).origin i = l.origin i := by simp [Ledger.restart, hp]
      have hcp : ((r.restart inputs outputs).threads i).cp = c := by
        simp [Remains.restart, Service.start, hp]
      rw [horigin, hcp]
      refine ((hI.covers i hi).rewind (hle i hi c hp)).mono fun m _ hm => ?_
      rintro ⟨a, ha, hai, ham, hw⟩
      exact ⟨a, ha, hai, ham, fun w hin => .inl (hdisk i hi c hp m hm w (hw w hin))⟩
  · rcases hkill with rfl | ⟨rfl, hsame⟩
    · exact (hI.repeats i).rewind _
    · by_cases hi : i < shape.threadCnt
      · have hcp : ((r.restart inputs outputs).threads i).cp = (s.threads i).cp := by
          simp [Remains.restart, Service.start, hsame i hi]
        rw [hcp]
        exact hI.repeats i
      · exact hI.repeats_other hi _

theorem kill_inv (hI : Inv shape ends s l) (inputs : Nat → Option (IpCheckpoint δ))
    (outputs : Nat → Option OutputSlot) :
    Inv shape ends ((killed s).restart inputs outputs) (l.restart (killed s) 1) := by
  refine restart_inv hI (fun i _ c hc => hI.delivery.positions.persisted_le i c hc)
    (fun i _ c hc m hm w hw => ?_) (.inl rfl) inputs outputs
  have hdisk : s.analysisQueue.OnDisk w := by
    rcases hw with hw | hw
    · exact hw
    · exact hI.delivery.safe hw hc hm
  simpa only [Output.OnDisk, killed, bytes_start] using hdisk

theorem delivery_pass (hI : AnalysisDelivery.Inv s l.injected) (n : Nat) :
    let t := (Service.writeStep shape)^[n] s
    AnalysisDelivery.Inv t l.injected ∧ Output.Grows s.analysisQueue t.analysisQueue := by
  induction n generalizing s with
  | zero => exact ⟨hI, Output.Grows.refl _⟩
  | succ n ih =>
    rw [Function.iterate_succ_apply]
    obtain ⟨-, hgrows⟩ := Service.writeStep_analysisQueue shape hI.isOpen
    have hwrite : AnalysisDelivery.Inv (s.writeStep shape) l.injected := AnalysisDelivery.write_inv hI
    obtain ⟨hinv, hgrows'⟩ := ih hwrite
    exact ⟨hinv, hgrows.trans hgrows'⟩

theorem shutdown_inv (hI : Inv shape ends s l) (hs : Stopped shape s)
    (inputs : Nat → Option (IpCheckpoint δ)) (outputs : Nat → Option OutputSlot) :
    Inv shape ends ((closed shape s).restart inputs outputs) (l.restart (closed shape s) 0) := by
  have hsame : ∀ i < shape.threadCnt, (closed shape s).persisted.threads i = some (s.threads i).cp :=
    (pass_spec hs.writer).2.2
  have hpass : AnalysisDelivery.Inv (pass shape s) l.injected ∧
      Output.Grows s.analysisQueue (pass shape s).analysisQueue :=
    delivery_pass hI.delivery (remaining shape (.inputStats 0) + 1)
  obtain ⟨hinv, hgrows⟩ := hpass
  refine restart_inv hI (fun i hi c hc => ?_) (fun i hi c hc m hm w hw => ?_)
    (.inr ⟨rfl, hsame⟩) inputs outputs
  · rw [hsame i hi] at hc
    cases hc
    exact le_rfl
  · have hqueue : (pass shape s).analysisQueue.InQueue w := by
      rcases hw with hw | hw
      · exact (hw.mono hgrows).inQueue
      · exact hinv.inQueue _ hw
    have hdisk := hqueue.fflush hinv.isOpen
    simpa only [Output.OnDisk, closed, bytes_start, Output.fclose] using hdisk

theorem step_inv {e : LifeEvent δ} (hI : Inv shape ends s l) (hadm : Admits shape ends (s, l) e)
    (h : lifeStep cfg varint shape s e = some s') : Inv shape ends s' (see varint shape s l e) := by
  cases e with
  | live e => exact live_inv hI hadm h
  | kill inputs outputs =>
    cases h
    exact kill_inv hI inputs outputs
  | shutdown inputs outputs =>
    simp only [lifeStep, Option.ite_none_right_eq_some, Option.some.injEq] at h
    obtain ⟨hs, rfl⟩ := h
    exact shutdown_inv hI hs inputs outputs

theorem Inv.safe (hI : Inv shape ends s l) : Safe shape ends (s, l) where
  kept i hi c hc := by
    refine ((hI.covers i hi).rewind (hI.delivery.positions.persisted_le i c hc)).mono fun m _ hm => ?_
    rintro ⟨a, ha, hai, ham, hw⟩
    refine ⟨a, ha, hai, ham, fun w hin => ?_⟩
    rcases hw w hin with hw | hw
    · exact hw
    · exact hI.delivery.safe hw hc hm
  bounded i m := (hI.repeats i).all m

theorem start_inv (r : Remains δ) (inputs : Nat → Option (IpCheckpoint δ))
    (outputs : Nat → Option OutputSlot) :
    Inv shape ends (r.restart inputs outputs) (Ledger.begin r) := by
  refine ⟨AnalysisDelivery.start_inv _ _ _ _ _, fun i e he => ?_, fun i e he => ?_, ?_,
    fun i _ => Covers.start _ _ _, fun i => ⟨?_, ?_⟩⟩
  · simp [Remains.restart, Service.start] at he
  · simp [Remains.restart, Service.start] at he
  · simp [Ledger.begin]
  · simp [Ledger.begin, Ledger.times]
  · simp [Ledger.begin, Ledger.times]

end

/-- In every run through any number of lives whose steps are admitted, a message up to the persisted position of a
thread was analyzed with all its frames on disk, and none was analyzed more than once without a kill. -/
theorem lives_safe (cfg : HsConfig) (varint : Nat → List UInt8) (shape : Shape)
    (ends : List Checkpoint) (r : Remains δ) (inputs : Nat → Option (IpCheckpoint δ))
    (outputs : Nat → Option OutputSlot) {es : List (LifeEvent δ)}
    (hadm : Runs.Meets (step cfg varint shape) (Admits shape ends) (start r inputs outputs) es) :
    Runs.Always (step cfg varint shape) (Safe shape ends) (start r inputs outputs) es := by
  refine Runs.Always.mono (P := fun s : State δ => Inv shape ends s.1 s.2) (fun _ hI => hI.safe) ?_
  refine Runs.always_of_meets (I := fun s : State δ => Inv shape ends s.1 s.2)
    (fun s e s' hI hc h => ?_) (start_inv r inputs outputs) hadm
  obtain ⟨hs, hl⟩ := Runs.observe_some.mp h
  rw [hl]
  exact step_inv hI hc hs

/-- Nothing is there yet. -/
def nothing : Remains Nat where
  inputDir := ⟨[], fun _ => []⟩
  analysisDir := ⟨[], fun _ => []⟩
  persisted := ⟨fun _ => .nil, fun _ => none, fun _ _ => none, fun _ => none⟩

/-- A message is analyzed and a frame injected for it; the process is killed before a pass, so the message is
analyzed again, and then shut down. -/
def twoLives : List (LifeEvent Nat) :=
  [.live (.find 0 ⟨0, 10⟩), .live (.analyzeInject 0 [1, 2, 3] ⟨0, none, none⟩), .live (.analyzed 0),
    .kill (fun _ => none) fun _ => none, .live (.find 0 ⟨0, 10⟩),
    .live (.analyzeInject 0 [1, 2, 3] ⟨0, none, none⟩), .live (.analyzed 0),
    .shutdown (fun _ => none) fun _ => none, .live (.find 0 ⟨0, 20⟩)]

theorem lives_safe_two :
    Runs.Always (step ⟨1024, 0, 0⟩ (fun n => [UInt8.ofNat n]) ⟨0, 1, 0⟩) (Safe ⟨0, 1, 0⟩ [⟨0, 10⟩, ⟨0, 20⟩])
      (start nothing (fun _ => none) fun _ => none) twoLives := by
  refine lives_safe _ _ _ _ _ _ _ ?_
  refine .cons rfl ⟨by decide, by decide⟩ (.cons rfl trivial (.cons rfl trivial (.cons rfl trivial ?_)))
  refine .cons rfl ⟨by decide, by decide⟩ (.cons rfl trivial (.cons rfl trivial (.cons rfl trivial ?_)))
  exact .cons rfl ⟨by decide, by decide⟩ trivial

end ServiceLives

end Hindsight
