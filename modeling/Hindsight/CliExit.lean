import Hindsight.CliCascade
import Hindsight.QueueWriter

/-!
# Hindsight.CliExit

What the exit status of `hindsight_cli` says: where it tells of no plugin that was lost, each plugin was offered every
message of its queues, those on disk at the start and those injected while the program ran.

* `Seen`: the observer, with the messages injected and the calls of each plugin.
* `Ready` and `Admits`: what the queues hold at the start, and what the plugins are promised to do.
* `Inv`: the invariant of a run, with `Tracked` for the plugins and `Holding` for the queues.
* `exit_safe`: every run.
-/

namespace Hindsight

namespace CliExit

open CliThread CliService CliDrain QueueContent

/-! ## The observer -/

/-- The messages that were put into the queues, and the calls each plugin got. -/
structure Seen where
  injected : Queue → List (List UInt8)
  analysis : Nat → Nat → List Offer
  outputs : Nat → List Offer

/-- The messages an event adds to a queue. -/
def added (q : Queue) : CliService.Event → List (List UInt8)
  | .inputInject _ pb | .outputInject _ pb => if q = .input then [pb] else []
  | .analysisInject _ pb => if q = .analysis then [pb] else []
  | _ => []

def see (s : HsCli) (g : Seen) (e : CliService.Event) : Seen where
  injected q := g.injected q ++ added q e
  analysis i k :=
    match e with
    | .analysis i' e =>
      if i' = i then
        CliDrain.see (now s.disk (seenBy ((s.analysis i).plugins k) (s.analysis i).reader)) (g.analysis i k)
          (e.of k)
      else g.analysis i k
    | _ => g.analysis i k
  outputs j :=
    match e with
    | .output j' e =>
      if j' = j then CliDrain.see (now s.disk (s.outputs j).thread) (g.outputs j) e else g.outputs j
    | _ => g.outputs j

abbrev State := HsCli × Seen

def step (P : Program) : State → CliService.Event → Option State := Runs.observe (CliService.step P) see

def start (P : Program) : State := (CliService.start P, ⟨fun _ => [], fun _ _ => [], fun _ => []⟩)

/-- The messages fit the readers, the input plugins are joined, no output plugin injects a message once `main` has
flushed the input queue for good, and the threads meet the condition of `CliDrain`. -/
def Admits (P : Program) (s : State) : CliService.Event → Prop
  | .inputInject _ pb => Takes P.cfg P.lib (s.1.queue .input) pb
  | .analysisInject _ pb => Takes P.cfg P.lib (s.1.queue .analysis) pb
  | .outputInject _ pb => Takes P.cfg P.lib (s.1.queue .input) pb ∧ rank s.1.main < 4
  | .analysis i e => ∀ k < P.pluginCnt i, CliDrain.Admits (P.analysisSetup s.1.disk i k)
      (now s.1.disk (seenBy ((s.1.analysis i).plugins k) (s.1.analysis i).reader), s.2.analysis i k) (e.of k)
  | .output j e => CliDrain.Admits (P.outputSetup s.1.disk j)
      (now s.1.disk (s.1.outputs j).thread, s.2.outputs j) e
  | .main joined => rank s.1.main = 2 → joined = true
  | _ => True

/-- The checkpoints the threads start with. -/
def Starts (P : Program) (q : Queue) (c : Checkpoint) : Prop :=
  (q = .input ∧ ∃ i < P.threadCnt, c = P.threadStart i) ∨
    ∃ j < P.outputCap, (P.readQueue j).reads q = true ∧ c = P.outputStart j q

/-- What the queues hold at the start. -/
structure Ready (P : Program) (msgs : Queue → Nat → List (List UInt8)) : Prop where
  whole : ∀ q, Whole P.lib (hsInitOutput (P.dirs q)).dir (msgs q)
  ids : ∀ q, ∀ id ∈ (hsInitOutput (P.dirs q)).dir.ids, id < ullongMax
  next : ∀ q, ∀ id ∈ (hsInitOutput (P.dirs q)).dir.ids, id < findLastId (P.dirs q) →
    id + 1 ∈ (hsInitOutput (P.dirs q)).dir.ids
  starts : ∀ q c, Starts P q c → StartsAt P.lib P.cfg.outputSize (hsInitOutput (P.dirs q)) (msgs q) c

/-- What a thread that starts at `c` has to process: the messages there were, and those that came. -/
def due (P : Program) (msgs : Queue → Nat → List (List UInt8)) (g : Seen) (q : Queue) (c : Checkpoint) :
    List (List UInt8) :=
  unread P.lib (msgs q) (findLastId (P.dirs q)) c ++ g.injected q

/-- What the exit status says. -/
structure Safe (P : Program) (msgs : Queue → Nat → List (List UInt8)) (s : State) : Prop where
  analysis : s.1.main = .exited → s.1.rv.testBit 2 = false → ∀ i < P.threadCnt, ∀ k < P.pluginCnt i,
    offered (s.2.analysis i k) .input = due P msgs s.2 .input (P.threadStart i)
  outputs : s.1.main = .exited → s.1.rv.testBit 3 = false → ∀ j < P.outputCap,
    (∀ q, (P.readQueue j).reads q = true →
      offered (s.2.outputs j) q = due P msgs s.2 q (P.outputStart j q)) ∧ Settled (s.2.outputs j)

/-! ## The invariant -/

/-- The invariant of `CliDrain` for all plugins. -/
structure Tracked (P : Program) (s : HsCli) (g : Seen) : Prop where
  bare : ∀ i < P.threadCnt, (s.analysis i).reader.alive = false
  alive : ∀ j < P.outputCap, (s.outputs j).thread.alive = true
  analysis : ∀ i < P.threadCnt, ∀ k < P.pluginCnt i, Tracks (P.analysisSetup P.dirs i k) s.disk
    (seenBy ((s.analysis i).plugins k) (s.analysis i).reader) (g.analysis i k)
  outputs : ∀ j < P.outputCap,
    Tracks (P.outputSetup P.dirs j) s.disk (s.outputs j).thread (g.outputs j)

/-- What the queues hold: all there was and all that was injected. -/
def Holding (P : Program) (msgs₀ : Queue → Nat → List (List UInt8)) (s : HsCli) (g : Seen) : Prop :=
  ∃ msgs : Queue → Nat → List (List UInt8), ∀ q, Stored P.lib (s.queue q) (msgs q) ∧
    ∀ c, Starts P q c → StartsAt P.lib P.cfg.outputSize (s.queue q) (msgs q) c ∧
      unread P.lib (msgs q) (s.queue q).cp.id c = due P msgs₀ g q c

structure Inv (P : Program) (msgs : Queue → Nat → List (List UInt8)) (s : State) : Prop where
  holding : Holding P msgs s.1 s.2
  inputsDown : InputsDown P s.1
  threadsDown : ThreadsDown P s.1
  outputsDown : OutputsDown P s.1
  inputFlushed : 4 ≤ rank s.1.main → (s.1.queue .input).buf = []
  analysisFlushed : 9 ≤ rank s.1.main → (s.1.queue .analysis).buf = []
  tracked : Tracked P s.1 s.2

/-! ### The plugins of a thread -/

section

variable {S S' : Setup} {p : AnalysisPlugin} {t t' u : Thread} {q : Queue}

/-- `t'` is `t` but for what it keeps of a plugin. -/
def Sees (t' t : Thread) : Prop := ∃ a x, t' = seenBy ⟨a, x⟩ t

theorem sees_seenBy (p : AnalysisPlugin) (t : Thread) : Sees (seenBy p t) t := ⟨p.alive, p.tickerExpires, rfl⟩

theorem head_seenBy : (seenBy p t).head = seenBy p t.head := by
  unfold Thread.head
  by_cases h : (t.localStop && (t.side .input).stopped && (t.side .analysis).stopped) = true
  · rw [if_pos h]
    exact if_pos h
  · rw [if_neg h]
    exact if_neg h

theorem leave_seenBy {sd : Side} {o : Outcome} : (seenBy p t).leave q sd o = seenBy p (t.leave q sd o) := by
  cases o <;> rfl

theorem poll_seenBy {n : Nat} : (seenBy p t).poll S n q = seenBy p (t.poll S n q) := by
  unfold Thread.poll
  split
  · exact leave_seenBy
  · rfl

theorem see_seenBy {ts : Int} : (seenBy p t).see ts = seenBy p (t.see ts) := by
  unfold Thread.see
  by_cases h : ts > (t.cliNs : Int)
  · rw [if_pos h]
    exact if_pos h
  · rw [if_neg h]
    exact if_neg h

theorem sees_timer (h : Sees t' t) : Sees (t'.timer S) t := by
  obtain ⟨a, x, rfl⟩ := h
  unfold Thread.timer
  split
  · exact ⟨a, _, rfl⟩
  · exact ⟨a, x, rfl⟩

theorem sees_terminate (hk : S.kind = .analysis) (h : Sees t' t) :
    Sees (t'.terminate S) { t with pc := .head } := by
  obtain ⟨a, x, rfl⟩ := h
  simp only [Thread.terminate, hk]
  exact ⟨false, x, rfl⟩

theorem sees_pc {pc : Pc} (h : Sees t' t) : Sees { t' with pc := pc } { t with pc := pc } := by
  obtain ⟨a, x, rfl⟩ := h
  exact ⟨a, x, rfl⟩

/-- A thread without a plugin is at the head of its loop after a call. -/
theorem answer_bare (hbare : t.alive = false) {pb : List UInt8} {again fatal : Bool} {v : Verdict} :
    t.answer S q pb again v fatal = { t with pc := .head } := by
  rw [Thread.answer, if_pos hbare]

theorem sees_answer (hk : S.kind = .analysis) (h : Sees t' t) {pb : List UInt8} {again fatal : Bool}
    {v : Verdict} : Sees (t'.answer S q pb again v fatal) { t with pc := .head } := by
  unfold Thread.answer
  split
  · exact sees_pc h
  · split
    · exact sees_terminate hk h
    · split
      · exact sees_terminate hk (sees_timer h)
      · simp only [hk, reduceCtorEq, false_and, if_false]
        exact sees_pc (sees_timer h)

theorem idle_bare (hk : S.kind = .analysis) (hbare : t.alive = false) {fatal : Bool} :
    t.idle S fatal = { t with currentT := Thread.seconds t.cliNs, pc := .head } := by
  have hclock : t.idleClock S = { t with currentT := Thread.seconds t.cliNs } := by
    simp only [Thread.idleClock, hk]
  have hfires : ({ t with currentT := Thread.seconds t.cliNs } : Thread).fires S = false := by
    simp only [Thread.fires, hbare, Bool.false_and]
  simp only [Thread.idle, hclock, Thread.timer, hfires, Bool.false_eq_true, false_and, and_false, if_false]

theorem sees_idle (hk : S.kind = .analysis) (h : Sees t' t) {fatal : Bool} :
    Sees (t'.idle S fatal) { t with currentT := Thread.seconds t.cliNs, pc := .head } := by
  have hclock : Sees (t'.idleClock S) { t with currentT := Thread.seconds t.cliNs } := by
    obtain ⟨a, x, rfl⟩ := h
    simp only [Thread.idleClock, hk]
    exact ⟨a, x, rfl⟩
  simp only [Thread.idle]
  split
  · exact sees_terminate hk (sees_timer hclock)
  · exact sees_pc (sees_timer hclock)

theorem sees_choose (hk : S.kind = .analysis) (hk' : S'.kind = .analysis)
    (hts : S'.timestamp = S.timestamp) (hbare : t.alive = false) {fatal fatal' : Bool} :
    Sees ((seenBy p t).choose S' fatal') (t.choose S fatal) := by
  have holdest : (seenBy p t).oldest S' = t.oldest S := by
    simp only [Thread.oldest, hts, seenBy]
  simp only [Thread.choose, holdest]
  split
  · rename_i q pb _
    have hside : (seenBy p t).setSide q { t.side q with held := none } =
        seenBy p (t.setSide q { t.side q with held := none }) := rfl
    refine sees_pc ?_
    change Sees (((seenBy p t).setSide q { t.side q with held := none }).see (S'.timestamp pb)) _
    rw [hside, hts, see_seenBy]
    exact sees_seenBy p _
  · by_cases hread : (t.side .input).bytesRead = 0 ∧ (t.side .analysis).bytesRead = 0
    · rw [if_pos hread, idle_bare hk hbare]
      refine (if_pos hread).symm ▸ sees_idle hk' (sees_seenBy p t)
    · rw [if_neg hread]
      exact (if_neg hread).symm ▸ sees_pc (sees_seenBy p t)

end

section

variable {P : Program} {msgs : Queue → Nat → List (List UInt8)} {s s' : HsCli} {g : Seen}
  {e : CliService.Event} {joined : Bool} {disk : Queue → Dir}

/-- The plugins of a thread run in step with its reader. -/
theorem step_seenBy {i k : Nat} {t t' : Thread} {p : AnalysisPlugin} {re : ReaderEvent}
    (hbare : t.alive = false) (h : CliThread.step (P.analysisSetup disk i 0) t (re.of 0) = some t') :
    ∃ u, CliThread.step (P.analysisSetup disk i k) (seenBy p t) (re.of k) = some u ∧ Sees u t' := by
  cases re with
  | head =>
    obtain ⟨hpc, rfl⟩ := step_head.mp h
    exact ⟨_, step_head.mpr ⟨hpc, rfl⟩, by rw [head_seenBy]; exact sees_seenBy p _⟩
  | poll n =>
    obtain ⟨q, hpc, rfl⟩ := step_poll.mp h
    exact ⟨_, step_poll.mpr ⟨q, hpc, rfl⟩, by rw [poll_seenBy]; exact sees_seenBy p _⟩
  | openNext =>
    obtain ⟨q, hpc, rfl⟩ := step_openNext.mp h
    exact ⟨_, step_openNext.mpr ⟨q, hpc, rfl⟩, by
      rw [Thread.openNext, leave_seenBy]
      exact sees_seenBy p _⟩
  | choose fatal =>
    obtain ⟨hpc, rfl⟩ := step_choose.mp h
    have hts : (P.analysisSetup disk i k).timestamp = (P.analysisSetup disk i 0).timestamp := rfl
    exact ⟨_, step_choose.mpr ⟨hpc, rfl⟩, sees_choose rfl rfl hts hbare⟩
  | answer v fatal =>
    obtain ⟨q, pb, again, hpc, rfl⟩ := step_answer.mp h
    refine ⟨_, step_answer.mpr ⟨q, pb, again, hpc, rfl⟩, ?_⟩
    rw [answer_bare hbare]
    exact sees_answer rfl (sees_seenBy p t)

/-! ### The queues -/

/-- An update of one of the queues, seen from each. -/
theorem change_update {q : Queue} {o : Output} {new : List (List UInt8)}
    (hc : Change P.cfg P.lib (s.queue q) o new) (hadded : ∀ r, added r e = if r = q then new else []) (r : Queue) :
    Change P.cfg P.lib (s.queue r) (Function.update s.queue q o r) (added r e) := by
  rw [hadded]
  by_cases h : r = q
  · rw [if_pos h, h, Function.update_self]
    exact hc
  · rw [if_neg h, Function.update_of_ne h]
    exact .none

theorem step_queue (hs : Steps P s e s') (hadm : Admits P (s, g) e) (q : Queue) :
    Change P.cfg P.lib (s.queue q) (s'.queue q) (added q e) := by
  cases hs with
  | spill r n => exact change_update (.spill n) (fun r => (ite_self _).symm) q
  | inputInject | analysisInject => exact change_update (.inject _ hadm) (fun r => rfl) q
  | outputInject => exact change_update (.inject _ hadm.1) (fun r => rfl) q
  | main hm =>
    cases hm with
    | flushInput hm => exact change_update (q := .input) (.spill _) (fun r => (ite_self _).symm) q
    | @flushAnalysis st hm =>
      have hqueue : ((s.flush .analysis).afterPass st).queue = (s.flush .analysis).queue := by
        cases st <;> rfl
      rw [hqueue]
      exact change_update (q := .analysis) (.spill _) (fun r => (ite_self _).symm) q
    | _ => exact .none
  | _ => exact .none

theorem Holding.step (hH : Holding P msgs s g)
    (hc : ∀ q, Change P.cfg P.lib (s.queue q) (s'.queue q) (added q e)) : Holding P msgs s' (see s g e) := by
  obtain ⟨m, hm⟩ := hH
  choose m' hstored hstarts using fun q => (hc q).stored (hm q).1
  refine ⟨m', fun q => ⟨hstored q, fun c hc => ?_⟩⟩
  obtain ⟨hstart, hunread⟩ := (hm q).2 c hc
  obtain ⟨hstart', hunread'⟩ := hstarts q c hstart
  refine ⟨hstart', ?_⟩
  rw [hunread', hunread, due, due, List.append_assoc]
  rfl

/-- Nothing comes to the input queue any more once `main` has flushed it for good. -/
theorem added_input (hI : InputsDown P s) (hs : Steps P s e s') (hadm : Admits P (s, g) e)
    (hr : 4 ≤ rank s.main) : added .input e = [] := by
  cases hs with
  | @inputInject i _ hi hpc =>
    have hpast : pastInput i s.main := .inl (by omega)
    exact absurd hpc (hI.unlisted i hi (hI.joined i hi hpast))
  | outputInject =>
    have hlt : rank s.main < 4 := hadm.2
    omega
  | _ => rfl

/-- Nor to the analysis queue, with the analysis threads gone. -/
theorem added_analysis (hT : ThreadsDown P s) (hs : Steps P s e s') (hr : 7 ≤ rank s.main) :
    added .analysis e = [] := by
  cases hs with
  | @analysisInject i _ hi hend =>
    rw [hT.joined i hi (.inl hr)] at hend
    cases hend
  | _ => rfl

theorem rank_of_step (hs : Steps P s e s') :
    rank s'.main ≤ max 1 (rank s.main) ∨ ∃ joined, e = .main joined ∧ Moves P s joined s' := by
  cases hs with
  | main hm => exact .inr ⟨_, rfl, hm⟩
  | writeCheckpoints | shutdown => exact .inl (le_max_of_le_left (by simp [rank]))
  | _ => exact .inl (le_max_right _ _)

/-- The pass after the input plugins were joined flushes the input queue, the one after the analysis threads the
analysis queue. -/
theorem flushed_of_moves (hm : Moves P s joined s') (ho : ∀ q, (s.queue q).Open) :
    (rank s.main < 4 → 4 ≤ rank s'.main → (s'.queue .input).buf = []) ∧
      (rank s.main < 9 → 9 ≤ rank s'.main → (s'.queue .analysis).buf = []) := by
  cases hm with
  | stopInput hm | stoppedInputs hm | joinInput hm | leakInput hm | skipInput hm | joinedInputs hm
  | stopThread hm | stoppedThreads hm | joinThread hm | joinedThreads hm =>
    exact ⟨fun hlt hle => (by simp [hm, rank] at hlt hle), fun _ hle => (by simp [rank] at hle)⟩
  | stopOutput hm | stoppedOutputs hm | joinOutput hm | skipOutput hm | joinedOutputs hm =>
    exact ⟨fun hlt => (by simp [hm, rank] at hlt), fun hlt => (by simp [hm, rank] at hlt)⟩
  | @flushInput st hm =>
    refine ⟨fun _ _ => ?_, fun hlt hle => ?_⟩
    · simp only [HsCli.flush, Function.update_self]
      exact Output.buf_fflush (ho .input)
    · cases st <;> simp [hm, rank] at hlt hle
  | @flushAnalysis st hm =>
    refine ⟨fun hlt hle => ?_, fun _ _ => ?_⟩
    · cases st <;> simp [hm, rank, HsCli.afterPass] at hlt hle
    · have hqueue : (((s.flush .analysis).afterPass st)).queue = (s.flush .analysis).queue := by
        cases st <;> rfl
      rw [hqueue]
      simp only [HsCli.flush, Function.update_self]
      exact Output.buf_fflush (ho .analysis)

theorem Inv.flushed (hI : Inv P msgs (s, g)) (h : Steps P s e s')
    (hadm : Admits P (s, g) e) :
    (4 ≤ rank s'.main → (s'.queue .input).buf = []) ∧
      (9 ≤ rank s'.main → (s'.queue .analysis).buf = []) := by
  obtain ⟨m, hm⟩ := hI.holding
  have hopen : ∀ q, (s.queue q).Open := fun q => (hm q).1.isOpen
  have henter : ∀ n, 2 ≤ n → rank s.main < n → n ≤ rank s'.main →
      ∃ joined, e = .main joined ∧ Moves P s joined s' := fun n hn hlt hle =>
    (rank_of_step h).resolve_left fun hmax => by omega
  constructor
  · intro hr
    by_cases hlt : rank s.main < 4
    · obtain ⟨joined, -, hmoves⟩ := henter 4 (by decide) hlt hr
      exact (flushed_of_moves hmoves hopen).1 hlt hr
    · have hc := step_queue h hadm .input
      rw [added_input hI.inputsDown h hadm (not_lt.mp hlt)] at hc
      exact (hc.still (hm .input).1 (hI.inputFlushed (not_lt.mp hlt))).1
  · intro hr
    by_cases hlt : rank s.main < 9
    · obtain ⟨joined, -, hmoves⟩ := henter 9 (by decide) hlt hr
      exact (flushed_of_moves hmoves hopen).2 hlt hr
    · have hc := step_queue h hadm .analysis
      have hr : 9 ≤ rank s.main := not_lt.mp hlt
      rw [added_analysis hI.threadsDown h (le_trans (by decide) hr)] at hc
      exact (hc.still (hm .analysis).1 (hI.analysisFlushed hr)).1

/-- The queues go on, and a thread that is told to stop has them as they are. -/
theorem Inv.grows (hI : Inv P msgs (s, g)) (h : Steps P s e s')
    (hadm : Admits P (s, g) e) :
    (∀ q, (s.disk q).Within (s'.disk q)) ∧
      (5 ≤ rank s.main → (s'.disk .input).tip = (s.disk .input).tip) ∧
      (9 ≤ rank s.main → ∀ q, (s'.disk q).tip = (s.disk q).tip) := by
  obtain ⟨m, hm⟩ := hI.holding
  have hinput : 5 ≤ rank s.main → (s'.disk .input).tip = (s.disk .input).tip := fun hr => by
    have hc := step_queue h hadm .input
    have hr : 4 ≤ rank s.main := le_trans (by decide) hr
    rw [added_input hI.inputsDown h hadm hr] at hc
    exact (hc.still (hm .input).1 (hI.inputFlushed hr)).2
  refine ⟨fun q => (step_queue h hadm q).within (hm q).1, hinput, fun hr q => ?_⟩
  cases q with
  | input => exact hinput (le_trans (by decide) hr)
  | analysis =>
    have hc := step_queue h hadm .analysis
    rw [added_analysis hI.threadsDown h (le_trans (by decide) hr)] at hc
    exact (hc.still (hm .analysis).1 (hI.analysisFlushed hr)).2

/-! ### The plugins -/

/-- Where the threads take no step, they follow the queues. -/
theorem Inv.follow (hI : Inv P msgs (s, g)) (h : Steps P s e s') (hadm : Admits P (s, g) e)
    (ha : s'.analysis = s.analysis)
    (ho : ∀ j < P.outputCap, (s'.outputs j).thread = (s.outputs j).thread) {g' : Seen}
    (hga : g'.analysis = g.analysis) (hgo : g'.outputs = g.outputs) : Tracked P s' g' := by
  obtain ⟨hwithin, hinput, hboth⟩ := hI.grows h hadm
  have hT := hI.tracked
  refine ⟨fun i hi => by rw [ha]; exact hT.bare i hi, fun j hj => by rw [ho j hj]; exact hT.alive j hj,
    fun i hi k hk => ?_, fun j hj => ?_⟩
  · rw [ha, hga]
    refine (hT.analysis i hi k hk).grow (fun q _ => hwithin q) fun hstop q hq => ?_
    cases q with
    | input => exact hinput (hI.threadsDown.stop i hi hstop)
    | analysis => cases hq
  · rw [ho j hj, hgo]
    exact (hT.outputs j hj).grow (fun q _ => hwithin q) fun hstop q _ =>
      hboth (hI.outputsDown.stop j hj hstop) q

theorem seenBy_of_sees {t t' : Thread} (h : Sees t' t) : seenBy ⟨t'.alive, t'.tickerExpires⟩ t = t' := by
  obtain ⟨a, x, rfl⟩ := h
  rfl

/-- A plugin that is terminated has nothing to keep to. -/
theorem Tracks.lose {S : Setup} {disk : Queue → Dir} {p : AnalysisPlugin} {t : Thread} {log : List Offer}
    (h : Tracks S disk (seenBy p t) log) (lost : Bool) :
    Tracks S disk (seenBy { p with alive := p.alive && !lost } t) log := by
  cases lost with
  | false =>
    simp only [Bool.not_false, Bool.and_true]
    exact h
  | true =>
    intro content m _ halive
    change (p.alive && false) = true at halive
    rw [Bool.and_false] at halive
    cases halive

/-- One analysis thread is replaced, with the calls of its plugins; the queues stay as they are. -/
theorem Tracked.replaceThread {g' : Seen} {i : Nat} {t : PluginThread} (hT : Tracked P s g)
    (hs : s'.analysis = Function.update s.analysis i t) (hqueue : s'.queue = s.queue)
    (houtputs : s'.outputs = s.outputs) (hbare : i < P.threadCnt → t.reader.alive = false)
    (ht : i < P.threadCnt → ∀ k < P.pluginCnt i,
      Tracks (P.analysisSetup P.dirs i k) s.disk (seenBy (t.plugins k) t.reader) (g'.analysis i k))
    (hother : ∀ n, n ≠ i → g'.analysis n = g.analysis n) (hg : g'.outputs = g.outputs) : Tracked P s' g' := by
  have hdisk : s'.disk = s.disk := funext fun q => by rw [HsCli.disk, HsCli.disk, hqueue]
  have hbares := (Function.forall_update_iff s.analysis fun n t => n < P.threadCnt →
    t.reader.alive = false).mpr ⟨hbare, fun n _ hn => hT.bare n hn⟩
  have htracks := (Function.forall_update_iff s.analysis fun n t => n < P.threadCnt →
    ∀ k < P.pluginCnt n, Tracks (P.analysisSetup P.dirs n k) s.disk (seenBy (t.plugins k) t.reader)
      (g'.analysis n k)).mpr ⟨ht, fun n he hn k hk => by rw [hother n he]; exact hT.analysis n hn k hk⟩
  constructor
  · rw [hs]
    exact hbares
  · rw [houtputs]
    exact hT.alive
  · rw [hs, hdisk]
    exact htracks
  · rw [houtputs, hdisk, hg]
    exact hT.outputs

/-- One output thread is replaced, with the calls of its plugin. -/
theorem Tracked.replaceOutput {g' : Seen} {j : Nat} {p : OutputThread} (hT : Tracked P s g)
    (hs : s'.outputs = Function.update s.outputs j p) (hqueue : s'.queue = s.queue)
    (hanalysis : s'.analysis = s.analysis) (halive : j < P.outputCap → p.thread.alive = true)
    (hp : j < P.outputCap → Tracks (P.outputSetup P.dirs j) s.disk p.thread (g'.outputs j))
    (hother : ∀ n, n ≠ j → g'.outputs n = g.outputs n) (hg : g'.analysis = g.analysis) : Tracked P s' g' := by
  have hdisk : s'.disk = s.disk := funext fun q => by rw [HsCli.disk, HsCli.disk, hqueue]
  have halives := (Function.forall_update_iff s.outputs fun n p => n < P.outputCap →
    p.thread.alive = true).mpr ⟨halive, fun n _ hn => hT.alive n hn⟩
  have htracks := (Function.forall_update_iff s.outputs fun n p => n < P.outputCap →
    Tracks (P.outputSetup P.dirs n) s.disk p.thread (g'.outputs n)).mpr
    ⟨hp, fun n he hn => by rw [hother n he]; exact hT.outputs n hn⟩
  constructor
  · rw [hanalysis]
    exact hT.bare
  · rw [hs]
    exact halives
  · rw [hanalysis, hdisk, hg]
    exact hT.analysis
  · rw [hs, hdisk]
    exact htracks

/-- A step in the loop of an analysis thread. -/
theorem Tracked.analysisStep (hT : Tracked P s g) (hL : P.lib.Lawful) {i : Nat} {re : ReaderEvent}
    {t : PluginThread} (hi : i < P.threadCnt)
    (hadm : Admits P (s, g) (.analysis i re))
    (hs : HsCli.analysisStep P s.disk i (s.analysis i) re = some t) :
    Tracked P { s with analysis := Function.update s.analysis i t } (see s g (.analysis i re)) := by
  obtain ⟨hreader, hplugins, -, -⟩ := analysisStep_some hs
  have hbare : (now s.disk (s.analysis i).reader).alive = false := hT.bare i hi
  refine hT.replaceThread rfl rfl rfl (fun _ => ?_) (fun _ k hk => ?_) (fun n hn => ?_) rfl
  · by_contra halive
    have hstill := alive_of_step hreader (Bool.eq_true_of_not_eq_false halive)
    rw [hbare] at hstill
    cases hstill
  · obtain ⟨u, hu, hsees⟩ := step_seenBy (k := k) (p := (s.analysis i).plugins k) hbare hreader
    have hplugin : t.plugins k = ⟨u.alive, u.tickerExpires⟩ := by
      rw [hplugins, HsCli.pluginStep, hu]
    have hlog : (see s g (.analysis i re)).analysis i k =
        CliDrain.see (now s.disk (seenBy ((s.analysis i).plugins k) (s.analysis i).reader)) (g.analysis i k)
          (re.of k) := if_pos rfl
    rw [hplugin, seenBy_of_sees hsees, hlog]
    exact (hT.analysis i hi k hk).step hL (ofLoop_of k re) (hadm k hk) hu
  · exact funext fun k => if_neg (Ne.symm hn)

/-- A step in the loop of an output thread. -/
theorem Tracked.outputStep (hT : Tracked P s g) (hL : P.lib.Lawful) {j : Nat} {oe : CliThread.Event}
    {p : OutputThread} (hj : j < P.outputCap) (he : ofLoop oe = true)
    (hadm : Admits P (s, g) (.output j oe))
    (hs : HsCli.outputStep P s.disk j (s.outputs j) oe = some p) :
    Tracked P { s with outputs := Function.update s.outputs j p } (see s g (.output j oe)) := by
  obtain ⟨hthread, -, -, -⟩ := outputStep_some hs
  refine hT.replaceOutput rfl rfl rfl (fun _ => ?_) (fun _ => ?_) (fun n hn => if_neg (Ne.symm hn)) rfl
  · rw [(keeps_of_step hthread he).2 rfl]
    exact hT.alive j hj
  · have hlog : (see s g (.output j oe)).outputs j =
        CliDrain.see (now s.disk (s.outputs j).thread) (g.outputs j) oe := if_pos rfl
    rw [hlog]
    exact (hT.outputs j hj).step hL he hadm hthread

/-- An output thread is told to stop. -/
theorem Tracked.stopOutput (hT : Tracked P s g) {g' : Seen} {j : Nat} {pc : MainPc}
    (hg : g'.outputs = g.outputs) (ha : g'.analysis = g.analysis) :
    Tracked P { s with
      outputs := Function.update s.outputs j (HsCli.stopOutput (s.outputs j))
      main := pc } g' := by
  refine hT.replaceOutput rfl rfl rfl (fun hj => ?_) (fun hj => ?_) (fun n _ => congrFun hg n) ha
  · unfold HsCli.stopOutput
    split
    · exact hT.alive j hj
    · exact hT.alive j hj
  · rw [hg]
    unfold HsCli.stopOutput
    split
    · exact (hT.outputs j hj).stop
    · exact hT.outputs j hj

theorem thread_update {j : Nat} {p : OutputThread} (ho : s'.outputs = Function.update s.outputs j p)
    (h : p.thread = (s.outputs j).thread) (n : Nat) : (s'.outputs n).thread = (s.outputs n).thread := by
  rw [ho]
  by_cases he : n = j
  · rw [he, Function.update_self, h]
  · rw [Function.update_of_ne he]

theorem Inv.tracked_main (hI : Inv P msgs (s, g)) (hm : Moves P s joined s')
    (hadm : Admits P (s, g) (.main joined)) : Tracked P s' (see s g (.main joined)) := by
  have hs : Steps P s (.main joined) s' := .main hm
  cases hm with
  | @stopThread i =>
    exact hI.tracked.replaceThread rfl rfl rfl (fun hi => hI.tracked.bare i hi)
      (fun hi k hk => (hI.tracked.analysis i hi k hk).stop) (fun _ _ => rfl) rfl
  | stopOutput => exact hI.tracked.stopOutput rfl rfl
  | joinOutput => exact hI.follow hs hadm rfl (fun n _ => thread_update rfl (by rfl) n) rfl rfl
  | @flushAnalysis st =>
    refine hI.follow hs hadm ?_ (fun n _ => ?_) rfl rfl
    · cases st <;> rfl
    · cases st <;> rfl
  | _ => exact hI.follow hs hadm rfl (fun _ _ => rfl) rfl rfl

theorem Inv.tracked_step (hI : Inv P msgs (s, g)) (hL : P.lib.Lawful) (hs : Steps P s e s')
    (hadm : Admits P (s, g) e) : Tracked P s' (see s g e) := by
  have hfollow := hI.follow hs hadm
  cases hs with
  | main hm => exact hI.tracked_main hm hadm
  | analysis hi ht => exact hI.tracked.analysisStep hL hi hadm ht
  | output hj he hp => exact hI.tracked.outputStep hL hj he hadm hp
  | @analysisEnd i fatal =>
    exact hI.tracked.replaceThread rfl rfl rfl (fun hi => hI.tracked.bare i hi)
      (fun hi k hk => (hI.tracked.analysis i hi k hk).lose (fatal k)) (fun _ _ => rfl) rfl
  | outputStopped | outputLost => exact hfollow rfl (fun n _ => thread_update rfl (by rfl) n) rfl rfl
  | _ => exact hfollow rfl (fun _ _ => rfl) rfl rfl

theorem step_inv {t t' : State} (hL : P.lib.Lawful) (hI : Inv P msgs t) (hadm : Admits P t e)
    (h : step P t e = some t') : Inv P msgs t' := by
  obtain ⟨s, g⟩ := t
  obtain ⟨s', g'⟩ := t'
  obtain ⟨hs, hg⟩ := Runs.observe_some.mp h
  simp only at hs hg
  have hs := steps_of_step hs
  rw [hg]
  have hjoin : ∀ joined, e = .main joined → ∀ i, s.main = .waitInputs i → joined = true := by
    rintro joined rfl i hm
    exact hadm (by rw [show s.main = .waitInputs i from hm]; rfl)
  obtain ⟨hinput, hanalysis⟩ := hI.flushed hs hadm
  exact ⟨hI.holding.step (step_queue hs hadm), hI.inputsDown.step hs hjoin, hI.threadsDown.step hs,
    hI.outputsDown.step hs, hinput, hanalysis, hI.tracked_step hL hs hadm⟩

/-! ### The start -/

theorem full_start (d : Dir) (id : Nat) : (hsInitOutput d).full id = (hsInitOutput d).dir.bytes id := by
  have hbuf : (hsInitOutput d).buf = [] := rfl
  rw [Output.full, hbuf, ite_self, List.append_nil]

theorem stored_start (hR : Ready P msgs) (q : Queue) :
    Stored P.lib (hsInitOutput (P.dirs q)) (msgs q) := by
  have hq := QueueWriter.inv_start P.cfg (P.dirs q)
  refine ⟨hq.fh, hq.offset, hq.mem, hq.top, hR.next q, fun id hid => ?_, (hR.whole q).accepts, hR.ids q,
    fun id hid => ?_⟩
  · rw [full_start]
    exact (hR.whole q).bytes id hid
  · rw [full_start]
    exact (hR.whole q).size id hid

theorem holding_start (hR : Ready P msgs) : Holding P msgs (CliService.start P) (start P).2 :=
  ⟨msgs, fun q => ⟨stored_start hR q, fun c hc => ⟨hR.starts q c hc, (List.append_nil _).symm⟩⟩⟩

theorem not_rank_start {n : Nat} (h : n + 1 ≤ rank (start P).1.main) : False := by
  have hzero : rank (start P).1.main = 0 := rfl
  omega

theorem start_inv (hR : Ready P msgs) : Inv P msgs (start P) where
  holding := holding_start hR
  inputsDown := by
    refine ⟨fun i hi hl => ?_, fun i _ hp => ?_⟩
    · change decide (i < P.inputCap) = false at hl
      exact absurd hi (of_decide_eq_false hl)
    · rcases hp with hr | ⟨n, hm, -⟩
      · exact (not_rank_start hr).elim
      · cases hm
  threadsDown := by
    refine .of_ok (fun i _ => ⟨fun h => (by cases h), fun h => (by cases h), fun hp => ?_,
      fun k _ h => (by cases h), fun _ h => (by cases h)⟩) fun hr => (not_rank_start hr).elim
    rcases hp with hr | ⟨n, hm, -⟩
    · exact (not_rank_start hr).elim
    · cases hm
  outputsDown := by
    refine .of_ok (fun j hj => ⟨fun h => (by cases h), fun h => (by cases h), fun h => (by cases h),
      fun hl => ?_, fun hp => ?_⟩) fun hx => (by cases hx)
    · change decide (j < P.outputCap) = false at hl
      exact absurd hj (of_decide_eq_false hl)
    · rcases hp with hr | ⟨n, hm, -⟩
      · exact (not_rank_start hr).elim
      · cases hm
  inputFlushed hr := (not_rank_start hr).elim
  analysisFlushed hr := (not_rank_start hr).elim
  tracked := by
    refine ⟨fun _ _ => rfl, fun _ _ => rfl, fun i _ k _ => ?_, fun j _ => ?_⟩
    · exact tracks_start P.clock
    · exact tracks_start P.clock

/-! ### The end -/

section

variable {S : Setup} {m : Queue → Nat → List (List UInt8)} {q : Queue} {o : Output}

theorem Stored.bytes (h : Stored P.lib o (m q)) (hbuf : o.buf = []) {id : Nat} (hid : id ∈ o.dir.ids) :
    o.dir.bytes id = P.lib.frames (m q id) := by
  rw [← h.whole id hid, Output.full, hbuf, ite_self, List.append_nil]

theorem ahead_stored (h : Stored P.lib o (m q)) (hcontent : S.content q = o.dir) (n id : Nat)
    (hid : id ∈ o.dir.ids) (hn : id + n = o.cp.id) :
    CliDrain.ahead S m q id = Span.concat (m q) (id + 1) n := by
  induction n generalizing id with
  | zero =>
    refine CliDrain.ahead_nil fun i hi => ?_
    rw [hcontent] at hi
    exact (h.top i hi).trans_eq hn.symm
  | succ n ih =>
    have hnext : id + 1 ∈ o.dir.ids := h.next id hid (by omega)
    rw [CliDrain.ahead_next (hcontent ▸ hnext), ih (id + 1) hnext (by omega), Span.concat_succ]

variable {size : Nat}

theorem messages_stored (h : Stored P.lib o (m q)) (hlib : S.lib = P.lib) (hcontent : S.content q = o.dir)
    (hs : StartsAt P.lib size o (m q) (S.start q)) :
    CliDrain.messages S m q = unread P.lib (m q) o.cp.id (S.start q) := by
  have hle := h.top _ hs.mem
  rw [CliDrain.messages, hcontent, if_pos hs.mem, ahead_stored h hcontent (o.cp.id - (S.start q).id) _ hs.mem
    (by omega), hlib]
  rfl

theorem onDisk_stored (h : Stored P.lib o (m q)) (hbuf : o.buf = []) (hlib : S.lib = P.lib)
    (hcontent : S.content q = o.dir) (hs : StartsAt P.lib size o (m q) (S.start q)) : OnDisk S m q := by
  have hsize : ∀ id ∈ o.dir.ids, (o.dir.bytes id).length < 2 ^ 63 := fun id hid => by
    have hfull := h.size id hid
    rwa [Output.full, hbuf, ite_self, List.append_nil] at hfull
  constructor
  · rw [hlib, hcontent]
    exact ⟨fun id hid => h.bytes hbuf hid, h.accepts, hsize⟩
  · rw [hcontent]
    exact h.ids
  · rw [hcontent]
    exact fun id hid j hj hlt => h.next id hid (hlt.trans_le (h.top j hj))
  · obtain ⟨done, rest, hmsgs, hoff⟩ := hs.boundary
    have hlen := hsize _ hs.mem
    rw [h.bytes hbuf hs.mem, hmsgs, SandboxLib.frames_append, List.length_append] at hlen
    rw [hoff]
    omega
  · rw [hlib, hcontent]
    intro hid
    obtain ⟨done, rest, hmsgs, hoff⟩ := hs.boundary
    rw [h.bytes hbuf hid, hmsgs, hoff, SandboxLib.restFrom_frames, SandboxLib.frames_append,
      List.drop_left]

theorem full_stored (h : Stored P.lib o (m q)) (hbuf : o.buf = []) (hcontent : S.content q = o.dir)
    (hs : StartsAt P.lib S.outputSize o (m q) (S.start q)) : Full S q := by
  constructor
  · rw [hcontent]
    exact fun hid => absurd hs.mem hid
  · rw [hcontent]
    intro id hid j hj hle hlt
    have hsize := hs.size id hid hle (hlt.trans_le (h.top j hj))
    rw [Output.full, hbuf, ite_self, List.append_nil] at hsize
    exact hsize

end

/-- At the exit all that the queues hold is on disk; a thread that is out of its loop had it all. -/
theorem Tracks.safe {S : Setup} {t : Thread} {log : List Offer}
    (hT : Tracks S s.disk t log) (hlib : S.lib = P.lib) (hsize : S.outputSize = P.cfg.outputSize)
    (hbuf : ∀ q, (s.queue q).buf = []) {m : Queue → Nat → List (List UInt8)}
    (hm : ∀ q, Stored P.lib (s.queue q) (m q))
    (hs : ∀ q, S.readQueue.reads q = true →
      StartsAt P.lib P.cfg.outputSize (s.queue q) (m q) (S.start q)) (hpc : t.pc = .exited)
    (halive : t.alive = true) :
    (∀ q, S.readQueue.reads q = true →
      offered log q = unread P.lib (m q) (s.queue q).cp.id (S.start q)) ∧
      (S.kind = .output → Settled log) := by
  have hF : Future (on S s.disk) s.disk t m :=
    ⟨fun q _ => Dir.Within.refl _, fun q hq => onDisk_stored (hm q) (hbuf q) hlib rfl (hs q hq),
      fun q hq => full_stored (hm q) (hbuf q) rfl (hsize ▸ hs q hq), fun _ q _ => Dir.ends_tip _⟩
  obtain ⟨hoffered, hsettled⟩ :=
    CliDrain.Inv.safe (s := (now s.disk t, log)) (fun _ => hT s.disk m hF halive) hpc halive
  refine ⟨fun q hq => ?_, hsettled⟩
  rw [hoffered q hq]
  exact messages_stored (S := on S s.disk) (hm q) hlib rfl (hs q hq)

theorem Inv.safe {t : State} (hI : Inv P msgs t) : Safe P msgs t := by
  obtain ⟨s, g⟩ := t
  obtain ⟨m, hm⟩ := hI.holding
  have hbuf : s.main = .exited → ∀ q, (s.queue q).buf = [] := by
    intro hx q
    cases q with
    | input => exact hI.inputFlushed (by rw [show s.main = .exited from hx]; decide)
    | analysis => exact hI.analysisFlushed (by rw [show s.main = .exited from hx]; decide)
  constructor
  · intro hx hrv i hi k hk
    have hr : 7 ≤ rank s.main := by rw [show s.main = .exited from hx]; decide
    have hT := hI.threadsDown
    have hlost : s.analysisTerminated ≠ true := fun h => by
      rw [hT.status hr h] at hrv
      cases hrv
    have hkept : (s.analysis i).terminated ≠ true := fun h => hlost (hT.terminated i hi (.inl hr) h)
    have halive : ((s.analysis i).plugins k).alive = true := by
      by_contra h
      exact hkept (hT.dead i hi k hk (Bool.eq_false_of_not_eq_true h))
    have hpc : (s.analysis i).reader.pc = .exited := hT.ended i hi (hT.joined i hi (.inl hr))
    have hstarts : Starts P .input (P.threadStart i) := .inl ⟨rfl, i, hi, rfl⟩
    have hsafe := (hI.tracked.analysis i hi k hk).safe rfl rfl (hbuf hx) (fun q => (hm q).1)
      (fun q hq => by
        cases q with
        | input => exact ((hm .input).2 _ hstarts).1
        | analysis => cases hq) hpc halive
    exact (hsafe.1 .input rfl).trans ((hm .input).2 _ hstarts).2
  · intro hx hrv j hj
    have hO := hI.outputsDown
    have hpast : pastOutput j s.main := .inl (by rw [show s.main = .exited from hx]; decide)
    have hlost : s.outputsTerminated ≠ true := fun h => by
      rw [hO.status hx h] at hrv
      cases hrv
    obtain ⟨hend, hrunning⟩ := hO.unlisted j hj (hO.joined j hj hpast)
    have hpc : (s.outputs j).thread.pc = .exited := by
      refine (hO.ended j hj hend).resolve_right fun hf => ?_
      rw [hO.failed j hj hf] at hrunning
      exact hlost (hrunning.resolve_left Bool.false_ne_true)
    have hstarts : ∀ q, (P.readQueue j).reads q = true → Starts P q (P.outputStart j q) :=
      fun q hq => .inr ⟨j, hj, hq, rfl⟩
    have hsafe := (hI.tracked.outputs j hj).safe rfl rfl (hbuf hx) (fun q => (hm q).1)
      (fun q hq => ((hm q).2 _ (hstarts q hq)).1) hpc (hI.tracked.alive j hj)
    exact ⟨fun q hq => (hsafe.1 q hq).trans ((hm q).2 _ (hstarts q hq)).2, hsafe.2 rfl⟩

end

def oneMessage : Program where
  cfg := ⟨100, 0, 0⟩
  lib := ReaderResume.smallLib
  timestamp _ := 0
  dirs _ := ⟨[], fun _ => []⟩
  clock := 0
  inputCap := 1
  threadCnt := 1
  threads := Nat.zero_lt_one
  threadStart _ := ⟨0, 0⟩
  pluginCnt _ := 1
  analysisTicker _ _ := 0
  outputCap := 1
  readQueue _ := .input
  outputStart _ _ := ⟨0, 0⟩
  outputTicker _ := 0

/-- The turns of a thread that is told to stop. -/
def turns : List ReaderEvent :=
  [.head, .poll 0, .poll 0, .choose fun _ => false, .head, .poll 99, .poll 0, .choose fun _ => false,
    .head, .poll 0, .poll 0, .choose fun _ => false, .answer (fun _ => .final) fun _ => false,
    .head, .poll 99, .poll 0, .choose fun _ => false, .head]

def mainRun (n : Nat) : List CliService.Event := List.replicate n (.main true)

def inputRun : List CliService.Event :=
  .inputInject 0 [1] :: .shutdown :: mainRun 2 ++ .inputLeave 0 false true :: mainRun 6

def analysisRun : List CliService.Event :=
  turns.map (.analysis 0) ++ .analysisEnd 0 (fun _ => false) :: mainRun 6

def outputRun : List CliService.Event :=
  turns.map (fun e => .output 0 (e.of 0)) ++ .outputEnd 0 false :: mainRun 4

instance (cfg : HsConfig) (L : SandboxLib) [DecidablePred L.accepts] (o : Output) (pb : List UInt8) :
    Decidable (Takes cfg L o pb) := inferInstanceAs (Decidable (_ ∧ _))

instance (P : Program) [DecidablePred P.lib.accepts] (s : State) (e : CliService.Event) :
    Decidable (Admits P s e) :=
  match e with
  | .inputInject _ _ | .analysisInject _ _ => inferInstanceAs (Decidable (Takes _ _ _ _))
  | .outputInject _ _ => inferInstanceAs (Decidable (Takes _ _ _ _ ∧ _))
  | .analysis _ _ => inferInstanceAs (Decidable (∀ k < _, CliDrain.Admits _ _ _))
  | .output _ _ => inferInstanceAs (Decidable (CliDrain.Admits _ _ _))
  | .main _ => inferInstanceAs (Decidable (rank s.1.main = 2 → _))
  | .spill _ _ | .inputLeave _ _ _ | .inputDetach _ | .analysisEnd _ _ | .outputEnd _ _ | .writeCheckpoints
  | .shutdown => isTrue trivial

instance : DecidablePred oneMessage.lib.accepts := fun pb => inferInstanceAs (Decidable (pb.length < 128))

theorem oneMessage_ready : Ready oneMessage fun _ _ => [] where
  whole q := by cases q <;> exact ⟨by decide, by decide, by decide⟩
  ids q := by cases q <;> decide
  next q := by cases q <;> decide
  starts q c hc := by
    have hstart : c = ⟨0, 0⟩ := by
      rcases hc with ⟨-, i, -, rfl⟩ | ⟨j, -, -, rfl⟩
      · rfl
      · rfl
    rw [hstart]
    cases q <;> exact ⟨by decide, ⟨[], [], rfl, rfl⟩, by decide⟩

/-- Not so for a message that an output plugin injects when the analysis threads are gone. -/
theorem exit_misses :
    ¬∀ P msgs es, P.lib.Lawful → Ready P msgs → Runs.Always (step P) (Safe P msgs) (start P) es := by
  intro h
  have hall := h oneMessage (fun _ _ => []) (inputRun ++ analysisRun ++ .outputInject 0 [2] :: outputRun)
    ReaderResume.smallLib_lawful oneMessage_ready
  obtain ⟨t, hrun, hmain, hrv, hoffered, hdue⟩ : ∃ t, Runs.run (step oneMessage) (start oneMessage)
      (inputRun ++ analysisRun ++ .outputInject 0 [2] :: outputRun) = some t ∧
        t.1.main = .exited ∧ t.1.rv.testBit 2 = false ∧ offered (t.2.analysis 0 0) .input = [[1]] ∧
          due oneMessage (fun _ _ => []) t.2 .input ⟨0, 0⟩ = [[1], [2]] :=
    ⟨_, rfl, rfl, rfl, by decide, by decide⟩
  have hall := (hall.run hrun).analysis hmain hrv 0 (by decide) 0 (by decide)
  have hstart : oneMessage.threadStart 0 = ⟨0, 0⟩ := rfl
  rw [hoffered, hstart, hdue] at hall
  revert hall
  decide

end CliExit

end Hindsight
